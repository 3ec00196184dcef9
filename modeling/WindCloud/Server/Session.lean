import WindCloud.Server.Auth

/-!
# Control and transfer connections

The functions of `session.c`. A control connection owns a session context; the
context of a transfer connection is rebuilt from the path in its ticket.
-/

set_option autoImplicit false

namespace WindCloud
open CString Effect

def buildTransferFullPath (ctx : ClientContext) (arg : Text) (size : ℕ) : Option Text :=
  if checkArgPath arg = true ∧ '/' ∉ arg then
    bounded size
      (if ctx.currentPath = "/".toList then '/'::arg else ctx.currentPath ++ '/'::arg)
  else none

structure RangeRequest where
  fileName : Text
  rangeStart : ℤ
  rangeEnd : ℤ
  sourceIp : Text
  sourcePort : Text
  deriving DecidableEq, Repr

/-- The five fields of `name|start|end|ip|port`. -/
def parseGetsRangeTicketRequest (request : Text) (nameSize ipSize portSize : ℕ) :
    Option RangeRequest := do
  let buf ← bounded cmdDataLen request
  let (name,rest) ← strtok ['|'] buf
  let fileName ← bounded nameSize name
  let (first,rest) ← strtok ['|'] rest
  let (last,rest) ← strtok ['|'] rest
  let (ip,rest) ← strtok ['|'] rest
  let sourceIp ← bounded ipSize ip
  let (port,_) ← strtok ['|'] rest
  let sourcePort ← bounded portSize port
  let rangeStart := atollOff first
  let rangeEnd := atollOff last
  if rangeStart < 0 ∨ rangeEnd < rangeStart then none
  else some ⟨fileName,rangeStart,rangeEnd,sourceIp,sourcePort⟩

def currentServerSource : Server (Option (List SourceServer)) := do
  match ← getCurrentServerAddress 64 16 with
  | none => pure none
  | some (ip,port) => pure (some [⟨ip,port⟩])

/-- The registered sources of a file, or this server where none is. -/
def loadAvailableSourcesForFile (fileId : ℕ) : Server (Option (List SourceServer)) := do
  if fileId = 0 then pure none
  else
    match ← daoFileSourceList fileId maxSourceServerCount with
    | none => currentServerSource
    | some sources => if sources = [] then currentServerSource else pure (some sources)

def sendMultiGetsPlanPacket (p : MultiGetsPlan) : Server Unit := do
  let _ ← perform (.send (.plan p))
  pure ()

def refusePlan (arg : Text) (message : String) : Server Unit :=
  sendMultiGetsPlanPacket (initMultiGetsPlanPacket 0 arg (-1) none [] message)

def handleMultiGetsPlan (ctx : ClientContext) (arg : Text) : Server Unit := do
  match buildTransferFullPath ctx arg fullPathLen with
  | none => refusePlan arg "多点下载方案申请失败：文件名不合法"
  | some fullPath =>
    match ← daoGetFileInfoByPath ctx.userId fullPath with
    | none => refusePlan arg "多点下载方案申请失败：文件不存在"
    | some (_,fileId) =>
      match ← daoFileGetInfoById fileId with
      | none => refusePlan arg "多点下载方案申请失败：查询文件信息失败"
      | some (sha256sum,fileSize) =>
        match ← loadAvailableSourcesForFile fileId with
        | none => refusePlan arg "多点下载方案申请失败：没有可用数据源"
        | some sources =>
          sendMultiGetsPlanPacket
            (initMultiGetsPlanPacket 1 arg fileSize (some sha256sum) sources
              "多点下载方案申请成功")

def sendTransferTicketReplyPacket (p : TransferTicketReply) : Server Unit := do
  let _ ← perform (.send (.ticket p))
  pure ()

def refuseTicket (message : String) : Server Unit :=
  sendTransferTicketReplyPacket (initTransferTicketReplyPacket 0 message none)

def rangeGrant (ctx : ClientContext) (r : RangeRequest) (fullPath : Text) : Grant :=
  ⟨ctx.userId,CmdType.gets.code,fullPath,r.rangeStart,r.rangeEnd,r.sourceIp,r.sourcePort⟩

def handleGetsRangeTicketPrepare (ctx : ClientContext) (arg : Text) : Server Unit := do
  match parseGetsRangeTicketRequest arg fileNameLen 64 16 with
  | none => refuseTicket "下载分片票据申请失败：参数不合法"
  | some request =>
    match buildTransferFullPath ctx request.fileName fullPathLen with
    | none => refuseTicket "下载分片票据申请失败：文件名不合法"
    | some fullPath =>
      match ← daoGetFileInfoByPath ctx.userId fullPath with
      | none => refuseTicket "下载分片票据申请失败：文件不存在"
      | some (_,fileId) =>
        match ← loadAvailableSourcesForFile fileId with
        | none => refuseTicket "下载分片票据申请失败：数据源服务器不可用"
        | some sources =>
          if ⟨request.sourceIp,request.sourcePort⟩ ∈ sources then
            match ← issueTransferTicket (rangeGrant ctx request fullPath) transferTicketLen with
            | none => refuseTicket "下载分片票据申请失败：签发票据失败"
            | some ticket =>
              sendTransferTicketReplyPacket
                (initTransferTicketReplyPacket 1 "下载分片票据申请成功" (some ticket))
          else refuseTicket "下载分片票据申请失败：数据源服务器不可用"

def handleTransferPrepare (ctx : ClientContext) (cmdType : CmdType) (arg : Text) :
    Server Unit := do
  match buildTransferFullPath ctx arg fullPathLen with
  | none => refuseTicket "传输预请求失败：文件名不合法"
  | some fullPath =>
    match ← getCurrentServerAddress 64 16 with
    | none => refuseTicket "传输预请求失败：读取当前服务器地址失败"
    | some (ip,port) =>
      match ← issueTransferTicket ⟨ctx.userId,cmdType.code,fullPath,0,-1,ip,port⟩
          transferTicketLen with
      | none => refuseTicket "传输预请求失败：签发票据失败"
      | some ticket =>
        sendTransferTicketReplyPacket
          (initTransferTicketReplyPacket 1 "传输票据申请成功" (some ticket))

/-- Parent directory and last name of an absolute path. -/
def splitFullPath (fullPath : Text) (parentSize fileSize : ℕ) : Option (Text × Text) :=
  if fullPath.head? ≠ some '/' then none
  else
    match splitLast '/' fullPath with
    | none => none
    | some (before,name) =>
      if name.take (fileSize-1) = [] then none
      else if before = [] then some ("/".toList,name.take (fileSize-1))
      else if before.length+1 > parentSize then none
      else some (before,name.take (fileSize-1))

def buildTransferContext (userId : ℤ) (fullPath : Text) :
    Server (Option (ClientContext × Text)) := do
  match splitFullPath fullPath 256 fileNameLen with
  | none => pure none
  | some (parent,fileName) =>
    if parent = "/".toList then pure (some (⟨userId,parent.take 255,0⟩,fileName))
    else
      match ← daoGetNodeByPath userId parent with
      | none => pure none
      | some (dirId,nodeType) =>
        if nodeType ≠ 1 then pure none
        else pure (some (⟨userId,parent.take 255,dirId⟩,fileName))

def failPutsRequest (fileName msg : Text) : Server Unit := do
  match ← perform .recvFile with
  | none => pure ()
  | some packet => do
    let _ ← sendFilePacket
      (initFilePacket .puts fileName packet.fileSize packet.fileSize none)
    sendMsg msg

/-- The name `split_full_path` leaves behind, whether it succeeds or not. -/
def splitName (fullPath : Text) : Text :=
  if fullPath.head? = some '/' then (baseName fullPath).take (fileNameLen-1) else []

/-- The upload branch of `handle_transfer_request`, after the ticket's check. -/
def serveUpload (userId : ℤ) (fullPath : Text) : Server Unit := do
  match ← buildTransferContext userId fullPath with
  | none => failPutsRequest (splitName fullPath) "上传失败：目标目录不存在".toList
  | some (ctx,fileName) => handlePuts ctx fileName

def loginContext (ctx : ClientContext) (userId : ℤ) : ClientContext :=
  if ctx.userId = -1 ∧ userId ≠ -1 then ⟨userId,"/".toList,0⟩ else { ctx with userId := userId }

def dispatchControlCommand (ctx : ClientContext) (cmdType : CmdType) (data : Text) :
    Server ClientContext := do
  if ctx.userId = -1 ∧ cmdType ≠ .login ∧ cmdType ≠ .register then do
    sendMsg "请先登录!".toList
    pure ctx
  else
    match cmdType with
    | .login => do
      let userId ← handleLogin data
      pure (loginContext ctx userId)
    | .register => do
      let _ ← handleRegister data
      pure ctx
    | .pwd => do handlePwd ctx; pure ctx
    | .cd => handleCd ctx data
    | .ls => do handleLs ctx; pure ctx
    | .touch => do handleTouch ctx data; pure ctx
    | .rm => do handleRm ctx data; pure ctx
    | .mkdir => do handleMkdir ctx data; pure ctx
    | .rmdir => do handleRmdir ctx data; pure ctx
    | .gets => do handleMultiGetsPlan ctx data; pure ctx
    | .getsRange => do handleGetsRangeTicketPrepare ctx data; pure ctx
    | .puts => do handleTransferPrepare ctx .puts data; pure ctx
    | .invalid | .reply => do
      sendMsg "指令错误!".toList
      pure ctx

end WindCloud
