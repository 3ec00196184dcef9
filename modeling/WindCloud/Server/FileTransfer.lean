import WindCloud.Server.FileCmds

/-!
# Uploads

`handle_puts` of `file_transfer.c`. The store file named by the hash is shared
by all uploads of one content: its size gives the offset the client resumes
at, then the file is extended to the full size and filled. A receive loop makes
at most as many passes as bytes are missing, so that number bounds it.
-/

set_option autoImplicit false

namespace WindCloud
open CString Effect

def bufferSize : ℤ := 4096
def largeFileMmapThreshold : ℤ := 100*1024*1024

def checkArgPath (arg : Text) : Bool :=
  decide (arg ≠ []) && !isInfix "..".toList arg && decide (arg.head? ≠ some '/')

/-- The path of a single name in the session's current directory. -/
def buildFullVirtualPath (size : ℕ) (ctx : ClientContext) (arg : Text) : Option Text :=
  if checkArgPath arg = true ∧ '/' ∉ arg then
    bounded size
      (if ctx.currentPath = "/".toList then '/'::arg else ctx.currentPath ++ '/'::arg)
  else none

def getCurrentServerAddress (ipSize portSize : ℕ) : Server (Option (Text × Text)) := do
  let (ip,port) ← perform .configAddress
  match bounded ipSize ip, bounded portSize port with
  | some i, some p => pure (some (i,p))
  | _, _ => pure none

/-- `some true` when the store file has the expected size, `none` when that
cannot be told. -/
def checkStoreFileReady (sha256sum : Text) (expectedSize : ℤ) : Server (Option Bool) := do
  match ← buildStoreFilePath sha256sum with
  | none => pure none
  | some realPath =>
    match ← perform (.stat realPath) with
    | .missing => pure (some false)
    | .failed => pure none
    | .regular size => pure (some (decide (size = expectedSize)))

def createUserFileLink (ctx : ClientContext) (fullPath fileName : Text) (fileId : ℕ)
    (needAddRef : Bool) : Server Bool := do
  if ← daoCreateFileNode ctx.userId fullPath ctx.currentDirId fileName fileId then
    if needAddRef then daoFileAddRefCount fileId else pure true
  else pure false

def registerSource (fileId : ℕ) : Server Bool := do
  match ← getCurrentServerAddress 64 16 with
  | none => pure false
  | some (ip,port) => daoFileSourceUpsert fileId ip port

/-- The tail of `finish_upload_db_work`, once the row of the file is known. -/
def linkUpload (ctx : ClientContext) (fullPath fileName : Text) (fileId : ℕ)
    (needAddRef : Bool) : Server Bool := do
  if ← createUserFileLink ctx fullPath fileName fileId needAddRef then registerSource fileId
  else pure false

def finishUploadDbWork (ctx : ClientContext) (fullPath fileName sha256sum : Text)
    (fileSize : ℤ) : Server Bool := do
  match ← daoFileInsert sha256sum fileSize with
  | some fileId => linkUpload ctx fullPath fileName fileId false
  | none =>
    match ← daoFileFindBySha256 sha256sum with
    | none => pure false
    | some (fileId,_) => linkUpload ctx fullPath fileName fileId true

/-- The loop of `write_file_full`, `total` bytes of `buf` being written. -/
def writeFileFull (buf : Content) : ℕ → ℕ → Server Bool
  | 0, _ => pure true
  | passes+1, total =>
    if total < buf.length then do
      let ret ← perform (.write (buf.drop total))
      if ret = 0 then pure false else writeFileFull buf passes (total+ret)
    else pure true

def once (remaining : ℤ) (receivedCount : ℕ) : ℤ :=
  if remaining-receivedCount < bufferSize then remaining-receivedCount else bufferSize

/-- The receive loop into the mapping, from `localSize` on. -/
def receiveMapped (localSize remaining : ℤ) : ℕ → ℕ → Server ℕ
  | 0, receivedCount => pure receivedCount
  | passes+1, receivedCount =>
    if receivedCount < remaining then do
      let ret ← perform (.recvMapped (localSize+receivedCount) (once remaining receivedCount))
      if ret = 0 then pure receivedCount
      else receiveMapped localSize remaining passes (receivedCount+ret)
    else pure receivedCount

/-- The receive loop through a buffer; `none` when a write fails. -/
def receiveBuffered (remaining : ℤ) : ℕ → ℕ → Server (Option ℕ)
  | 0, receivedCount => pure (some receivedCount)
  | passes+1, receivedCount =>
    if receivedCount < remaining then do
      let buf ← perform (.recv (once remaining receivedCount))
      if buf = [] then pure (some receivedCount)
      else if ← writeFileFull buf buf.length 0 then
        receiveBuffered remaining passes (receivedCount+buf.length)
      else pure none
    else pure (some receivedCount)

def sendFilePacket (p : FilePacket) : Server Bool := perform (.send (.file p))

def close : Server Unit := perform .close

def completeUpload (ctx : ClientContext) (fullPath fileName : Text) (packet : FilePacket) :
    Server Unit := do
  if ← finishUploadDbWork ctx fullPath fileName packet.hash packet.fileSize then do
    sendMsg "上传完成！".toList
    close
  else do
    sendMsg "上传失败：数据库写入失败".toList
    close

/-- What follows a receive loop: the file is cut to what was received, or the
tables are brought up to date. -/
def endUpload (ctx : ClientContext) (fullPath fileName : Text) (packet : FilePacket)
    (localSize : ℤ) (receivedCount : ℕ) : Server Unit := do
  if receivedCount < packet.fileSize-localSize then do
    let _ ← perform (.ftruncate (localSize+receivedCount))
    sendMsg "传输中断，已保存当前进度。".toList
    close
  else completeUpload ctx fullPath fileName packet

def receiveContent (ctx : ClientContext) (fullPath fileName : Text) (packet : FilePacket)
    (localSize : ℤ) : Server Unit := do
  if largeFileMmapThreshold < packet.fileSize then
    if ← perform (.mmap packet.fileSize) then do
      let receivedCount ← receiveMapped localSize (packet.fileSize-localSize)
        (packet.fileSize-localSize).toNat 0
      endUpload ctx fullPath fileName packet localSize receivedCount
    else do
      sendMsg "服务端内存映射失败".toList
      close
  else if ← perform (.lseek localSize) then do
    match ← receiveBuffered (packet.fileSize-localSize) (packet.fileSize-localSize).toNat 0 with
    | none => do
      sendMsg "服务端写入文件失败".toList
      close
    | some receivedCount => endUpload ctx fullPath fileName packet localSize receivedCount
  else do
    sendMsg "服务端定位文件失败".toList
    close

/-- The upload from the handshake on, `localSize` bytes being there already. -/
def resumeUpload (ctx : ClientContext) (arg fullPath fileName : Text) (packet : FilePacket)
    (localSize : ℤ) : Server Unit := do
  if ← sendFilePacket (initFilePacket .puts arg packet.fileSize localSize none) then
    if packet.fileSize-localSize ≤ 0 then completeUpload ctx fullPath fileName packet
    else if ← perform (.ftruncate packet.fileSize) then
      if packet.fileSize = 0 then completeUpload ctx fullPath fileName packet
      else receiveContent ctx fullPath fileName packet localSize
    else do
      sendMsg "服务端扩展文件失败".toList
      close
  else close

def uploadContent (ctx : ClientContext) (arg fullPath fileName : Text) (packet : FilePacket) :
    Server Unit := do
  match ← buildStoreFilePath packet.hash with
  | none => sendMsg "服务端创建真实路径失败".toList
  | some realPath =>
    if ← perform (.openUpload realPath) then do
      let st ← perform .fstat
      if packet.fileSize < st.getD 0 then do
        let _ ← perform (.ftruncate 0)
        resumeUpload ctx arg fullPath fileName packet 0
      else resumeUpload ctx arg fullPath fileName packet (st.getD 0)
    else sendMsg "服务端创建文件失败".toList

def instantUpload (ctx : ClientContext) (arg fullPath fileName : Text) (packet : FilePacket)
    (existedFileId : ℕ) : Server Unit := do
  if ← createUserFileLink ctx fullPath fileName existedFileId true then do
    let _ ← sendFilePacket (initFilePacket .puts arg packet.fileSize 0 (some packet.hash))
    pure ()
  else sendMsg "秒传失败：数据库写入失败".toList

def storeContent (ctx : ClientContext) (arg fullPath fileName : Text) (packet : FilePacket) :
    Server Unit := do
  match ← daoFileFindBySha256 packet.hash with
  | none => uploadContent ctx arg fullPath fileName packet
  | some (existedFileId,existedFileSize) =>
    match ← checkStoreFileReady packet.hash existedFileSize with
    | none => sendMsg "秒传失败：服务端无法校验真实文件".toList
    | some true => instantUpload ctx arg fullPath fileName packet existedFileId
    | some false => uploadContent ctx arg fullPath fileName packet

def handlePuts (ctx : ClientContext) (arg : Text) : Server Unit := do
  match ← perform .recvFile with
  | none => sendMsg "接收文件信息失败".toList
  | some packet =>
    match buildFullVirtualPath fullPathLen ctx arg with
    | none => sendMsg "路径非法或过长".toList
    | some fullPath => do
      let fileName ← extractFileName 256 fullPath
      if isValidVfsName fileName then
        match ← daoGetNodeByPath ctx.userId fullPath with
        | some _ => do
          let _ ← sendFilePacket
            (initFilePacket .puts arg packet.fileSize packet.fileSize none)
          sendMsg "错误：该文件已存在".toList
        | none =>
          if packet.hash = [] then sendMsg "上传失败：客户端没有提供文件哈希值".toList
          else storeContent ctx arg fullPath fileName packet
      else sendMsg "错误：文件名过长，最大长度为 30".toList

end WindCloud
