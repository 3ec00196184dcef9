import WindCloud.Server.Dao

/-!
# Directory and file commands

The functions of `file_cmds.c` with the replies they send. A handler that
changes the session returns its new context.
-/

set_option autoImplicit false

namespace WindCloud
open CString Effect

def emptyFileSha256 : Text :=
  "e3b0c44298fc1c149afbf4c8996fb92427ae41e4649b934ca495991b7852b855".toList

def perform (o : Op) : Server o.Res := Program.perform o

def sendMsg (msg : Text) : Server Unit := do
  let _ ← perform (.send (initCommandPacket .reply msg))
  pure ()

/-- `strcpy` or `sprintf` into an array of `size` bytes. -/
def strcpy (size : ℕ) (t : Text) : Server Text :=
  if t.length < size then pure t else overflow

def absPath (currentPath arg : Text) : Text :=
  if arg.head? = some '/' then arg
  else if currentPath = "/".toList then '/'::arg
  else currentPath ++ '/'::arg

def buildAbsPath (currentPath arg : Text) : Server Text := strcpy 256 (absPath currentPath arg)

def parentPath (currentPath : Text) : Text :=
  if currentPath = "/".toList then "/".toList
  else
    match splitLast '/' currentPath with
    | none => currentPath
    | some (before,_) => if before = [] then "/".toList else before

def getParentPath (currentPath : Text) : Server Text := strcpy 256 (parentPath currentPath)

def baseName (fullPath : Text) : Text :=
  match splitLast '/' fullPath with
  | none => fullPath
  | some (_,name) => name

def extractFileName (size : ℕ) (fullPath : Text) : Server Text := strcpy size (baseName fullPath)

def isValidVfsName (fileName : Text) : Bool :=
  decide (fileName.length ≠ 0 ∧ fileName.length ≤ maxVfsNameLen)

def buildStoreFilePath (sha256sum : Text) : Server (Option Text) := do
  match ← perform .storeDir with
  | none => pure none
  | some storeDir => pure (bounded maxPathLen (storeDir ++ '/'::sha256sum))

def unlinkStoreFile (sha256sum : Text) : Server Unit := do
  match ← buildStoreFilePath sha256sum with
  | none => pure ()
  | some realPath => do
    let _ ← perform (.unlink realPath)
    pure ()

def releaseFileEntityIfUnused (fileId : ℕ) : Server Bool := do
  match ← daoFileGetInfoById fileId with
  | none => pure false
  | some (sha256sum,_) =>
    if ← daoFileSubRefCount fileId then
      match ← daoFileGetRefCount fileId with
      | none => pure false
      | some refCount =>
        if 0 < refCount then pure true
        else do
          unlinkStoreFile sha256sum
          let _ ← daoFileSourceDeleteByFileId fileId
          daoFileDelete fileId
    else pure false

def ensureEmptyStoreFileExists : Server Bool := do
  match ← buildStoreFilePath emptyFileSha256 with
  | none => pure false
  | some realPath => perform (.openEmpty realPath)

/-- A path row for a file that has a row already, and one reference more. -/
def reuseEmptyFile (ctx : ClientContext) (targetPath fileName : Text) (fileId : ℕ) :
    Server Bool := do
  if ← daoCreateFileNode ctx.userId targetPath ctx.currentDirId fileName fileId then
    daoFileAddRefCount fileId
  else pure false

def createEmptyFileNode (ctx : ClientContext) (targetPath fileName : Text) : Server Bool := do
  if ← ensureEmptyStoreFileExists then
    match ← daoFileFindBySha256 emptyFileSha256 with
    | some (fileId,_) => reuseEmptyFile ctx targetPath fileName fileId
    | none =>
      match ← daoFileInsert emptyFileSha256 0 with
      | none =>
        match ← daoFileFindBySha256 emptyFileSha256 with
        | none => pure false
        | some (fileId,_) => reuseEmptyFile ctx targetPath fileName fileId
      | some fileId =>
        if ← daoCreateFileNode ctx.userId targetPath ctx.currentDirId fileName fileId then
          pure true
        else do
          let _ ← daoFileDelete fileId
          pure false
  else pure false

def handlePwd (ctx : ClientContext) : Server Unit := sendMsg ctx.currentPath

def handleLs (ctx : ClientContext) : Server Unit := do
  match ← daoListDir ctx.userId ctx.currentDirId with
  | none => sendMsg "服务器查询目录失败".toList
  | some text =>
    if text = [] then sendMsg "当前目录为空".toList else sendMsg text

/-- The tail of `handle_cd`, from the query for the target on. -/
def enterDir (ctx : ClientContext) (targetPath : Text) : Server ClientContext := do
  match ← daoGetNodeByPath ctx.userId targetPath with
  | none => do
    sendMsg "错误：目录不存在".toList
    pure ctx
  | some (targetId,nodeType) =>
    if nodeType ≠ 1 then do
      sendMsg "错误：目标不是一个目录".toList
      pure ctx
    else do
      sendMsg "进入目录成功".toList
      pure { ctx with currentPath := targetPath, currentDirId := targetId }

def handleCd (ctx : ClientContext) (arg : Text) : Server ClientContext := do
  if arg = [] then do
    sendMsg "cd 命令缺少参数".toList
    pure ctx
  else if arg = "..".toList then do
    let targetPath ← getParentPath ctx.currentPath
    enterDir ctx targetPath
  else if arg = ".".toList then do
    sendMsg "进入目录成功".toList
    pure ctx
  else do
    let targetPath ← buildAbsPath ctx.currentPath arg
    enterDir ctx targetPath

def handleMkdir (ctx : ClientContext) (arg : Text) : Server Unit := do
  if arg = [] then sendMsg "mkdir 命令缺少参数".toList
  else do
    let targetPath ← buildAbsPath ctx.currentPath arg
    let fileName ← extractFileName 64 targetPath
    if isValidVfsName fileName then
      match ← daoGetNodeByPath ctx.userId targetPath with
      | some _ => sendMsg "错误：该文件或目录已存在".toList
      | none =>
        if ← daoCreateNode ctx.userId targetPath ctx.currentDirId fileName 1 then
          sendMsg "创建文件夹成功".toList
        else sendMsg "创建文件夹失败，服务器内部错误".toList
    else sendMsg "错误：文件名或目录名过长，最大长度为 30".toList

def handleTouch (ctx : ClientContext) (arg : Text) : Server Unit := do
  if arg = [] then sendMsg "touch 命令缺少参数".toList
  else do
    let targetPath ← buildAbsPath ctx.currentPath arg
    let fileName ← extractFileName 64 targetPath
    if isValidVfsName fileName then
      match ← daoGetNodeByPath ctx.userId targetPath with
      | some _ => sendMsg "错误：该文件或目录已存在".toList
      | none =>
        if ← createEmptyFileNode ctx targetPath fileName then
          sendMsg "创建文件成功".toList
        else sendMsg "创建文件失败，服务器内部错误".toList
    else sendMsg "错误：文件名或目录名过长，最大长度为 30".toList

/-- The two deletions of `handle_rm`; the second is made only after the first. -/
def removeFile (ctx : ClientContext) (targetId fileId : ℕ) : Server Bool := do
  if ← daoDeleteNode ctx.userId targetId then releaseFileEntityIfUnused fileId else pure false

def handleRm (ctx : ClientContext) (arg : Text) : Server Unit := do
  if arg = [] then sendMsg "rm 命令缺少参数".toList
  else do
    let targetPath ← buildAbsPath ctx.currentPath arg
    match ← daoGetNodeByPath ctx.userId targetPath with
    | none => sendMsg "错误：文件不存在".toList
    | some (targetId,nodeType) =>
      if nodeType = 1 then sendMsg "错误：目标是目录，请使用 rmdir 命令".toList
      else
        match ← daoGetFileInfoByPath ctx.userId targetPath with
        | none => sendMsg "文件删除失败，无法定位真实文件".toList
        | some (_,fileId) =>
          if ← removeFile ctx targetId fileId then sendMsg "文件删除成功".toList
          else sendMsg "文件删除失败，数据库异常".toList

def handleRmdir (ctx : ClientContext) (arg : Text) : Server Unit := do
  if arg = [] then sendMsg "rmdir 命令缺少参数".toList
  else do
    let targetPath ← buildAbsPath ctx.currentPath arg
    match ← daoGetNodeByPath ctx.userId targetPath with
    | none => sendMsg "错误：目录不存在".toList
    | some (targetId,nodeType) =>
      if nodeType = 0 then sendMsg "错误：目标是文件，请使用 rm 命令".toList
      else
        match ← daoIsDirEmpty ctx.userId targetId with
        | none => sendMsg "服务器无法校验目录状态，无法删除".toList
        | some false => sendMsg "目标目录非空，请先删除目录下的内容".toList
        | some true =>
          if ← daoDeleteNode ctx.userId targetId then sendMsg "删除目录成功".toList
          else sendMsg "删除目录失败,数据库异常".toList

end WindCloud
