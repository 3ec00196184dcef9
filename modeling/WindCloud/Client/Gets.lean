import WindCloud.Client.Meta

/-!
# Downloads

The functions of `client_gets.c`, with the two requests they make on the
control connection. A receive or write loop makes at most as many passes as
bytes are missing; the reading loop of the merge stops at the end of its file.
-/

set_option autoImplicit false

namespace WindCloud
open CString Effect

namespace Client

def bufferSize : ℕ := 4096

structure GetsPartTask where
  partIndex : ℤ
  serverIp : Text
  serverPort : Text
  ticket : Text
  fileName : Text
  partFilePath : Text
  deriving DecidableEq, Repr

def buildClientLocalFilePath (size : ℕ) (baseDir fileName : Text) : Option Text :=
  if '/' ∈ fileName then none else bounded size (baseDir ++ '/'::fileName)

/-- The loop of `write_file_full`, `total` bytes of `buf` being written. -/
def writeFileFull (buf : Content) : ℕ → ℕ → Client Bool
  | 0, _ => pure true
  | passes+1, total =>
    if total < buf.length then do
      let ret ← perform (.write (buf.drop total))
      if ret = 0 then pure false else writeFileFull buf passes (total+ret)
    else pure true

def isPartFinished (p : MultipartPartInfo) : Bool := decide (partTotalSize p ≤ p.finishedBytes)

def once (remaining : ℤ) : ℤ := if remaining < bufferSize then remaining else bufferSize

/-- The receive loop: 0 when nothing is missing any more, 1 when the transfer
breaks, -1 when the file cannot be written. -/
def receivePart : ℕ → ℤ → Client ℤ
  | 0, _ => pure 0
  | passes+1, remaining =>
    if 0 < remaining then do
      match ← perform (.recvFull (once remaining)) with
      | none => pure 1
      | some buf =>
        if ← writeFileFull buf buf.length 0 then receivePart passes (remaining-once remaining)
        else pure (-1)
    else pure 0

/-- The download from `requestOffset` on, the part file being open. -/
def fillPart (fileSize requestOffset : ℤ) : Client ℤ := do
  let result ← receivePart (fileSize-requestOffset).toNat (fileSize-requestOffset)
  perform .closeOutput
  pure result

def closeFailed : Client ℤ := do
  perform .closeOutput
  pure (-1)

def seekPart (fileSize requestOffset : ℤ) : Client ℤ := do
  if ← perform (.lseek requestOffset) then fillPart fileSize requestOffset else closeFailed

def requestOffsetOf (localSize fileSize : ℤ) : ℤ :=
  if localSize < fileSize then localSize else if localSize = fileSize then fileSize else 0

def runGetsPartTransfer (task : GetsPartTask) : Client ℤ := do
  match ← perform .recvFile with
  | none => pure (-1)
  | some hello =>
    if hello.fileSize < 0 then pure (-1)
    else do
      let st ← perform (.stat task.partFilePath)
      let requestOffset := requestOffsetOf (st.getD 0) hello.fileSize
      if ← perform (.sendFile
          (initFilePacket .gets task.fileName hello.fileSize requestOffset none)) then
        if requestOffset = hello.fileSize then pure 0
        else if ← perform (.openPart task.partFilePath) then
          if requestOffset = 0 then
            if ← perform (.ftruncate 0) then seekPart hello.fileSize requestOffset else closeFailed
          else seekPart hello.fileSize requestOffset
        else pure (-1)
      else pure (-1)

def closeSocket (result : ℤ) : Client ℤ := do
  perform .closeSocket
  pure result

def getsPartThreadFunc (task : GetsPartTask) : Client ℤ := do
  perform (.connect task.serverIp task.serverPort)
  if ← perform .sendInit then
    if ← perform (.sendAuth task.ticket) then do
      let result ← runGetsPartTransfer task
      closeSocket result
    else closeSocket (-1)
  else closeSocket (-1)

/-- The reading loop of `merge_part_files` over one part file. -/
def copyPart : ℕ → Client Bool
  | 0 => pure true
  | passes+1 => do
    match ← perform (.read bufferSize) with
    | none => pure false
    | some buf =>
      if buf = [] then pure true
      else if ← writeFileFull buf buf.length 0 then copyPart passes
      else pure false

def mergeParts (m : MultipartTaskMeta) : List PartIndex → Client Bool
  | [] => pure true
  | i::is => do
    match ← perform (.openInput (m.parts i).partFilePath) with
    | none => pure false
    | some size => do
      let copied ← copyPart (size+1)
      perform .closeInput
      if copied then mergeParts m is else pure false

def mergePartFiles (localFilePath : Text) (m : MultipartTaskMeta) : Client Bool := do
  if ← perform (.openOutput localFilePath) then do
    let merged ← mergeParts m m.indices
    perform .closeOutput
    pure merged
  else pure false

def allPartsFinished (m : MultipartTaskMeta) : Bool :=
  m.indices.all fun i => isPartFinished (m.parts i)

/-- The part threads, joined by the manager before it goes on. -/
def runPartThreads : List GetsPartTask → Client Unit
  | [] => pure ()
  | task::tasks => do
    if ← perform .createThread then do
      let _ ← getsPartThreadFunc task
      runPartThreads tasks
    else runPartThreads tasks

def print (msg : String) : Client Unit := perform (.print msg.toList)

def downloadComplete (fileName : Text) : Text := "多点下载完成: ".toList ++ fileName

/-- What the manager does once all part threads have ended. -/
def finishDownload (localFilePath : Text) (m : MultipartTaskMeta) : Client Unit := do
  let (_,m) ← multipartTaskSyncProgress m
  if allPartsFinished m then
    if ← mergePartFiles localFilePath m then
      match ← perform (.fileSha256 localFilePath) with
      | none => print "校验最终文件哈希失败。"
      | some finalHash =>
        if finalHash = m.fileHash then do
          let _ ← multipartTaskCleanup m
          perform (.print (downloadComplete m.fileName))
        else print "最终文件哈希不匹配。"
    else print "分片合并失败。"
  else print "多点下载未完成，可再次执行 gets 继续下载。"

def getsManagerThreadFunc (localFilePath : Text) (m : MultipartTaskMeta)
    (tasks : List GetsPartTask) : Client Unit := do
  runPartThreads tasks
  finishDownload localFilePath m

def sendCommand (type : CmdType) (data : Text) : Client Bool :=
  perform (.sendCommand (initCommandPacket type data))

def requestMultiGetsPlan (arg : Text) : Client (Option MultiGetsPlan) := do
  if ← sendCommand .gets arg then
    match ← perform .recvPlan with
    | none => do
      print "接收多点下载方案失败"
      pure none
    | some plan => do
      perform (.print plan.message)
      if plan.success = 1 then pure (some plan) else pure none
  else do
    print "发送多点下载方案请求失败"
    pure none

def buildGetsRangeTicketRequest (size : ℕ) (fileName : Text) (rangeStart rangeEnd : ℤ)
    (sourceIp sourcePort : Text) : Option Text :=
  bounded size (fileName ++ '|'::decimal rangeStart ++ '|'::decimal rangeEnd ++
    '|'::sourceIp ++ '|'::sourcePort)

def requestGetsRangeTicket (fileName : Text) (p : MultipartPartInfo) : Client (Option Text) := do
  match buildGetsRangeTicketRequest cmdDataLen fileName p.rangeStart p.rangeEnd p.sourceIp
      p.sourcePort with
  | none => pure none
  | some request =>
    if ← sendCommand .getsRange request then
      match ← perform .recvTicket with
      | none => do
        print "接收下载分片票据失败"
        pure none
      | some reply =>
        if reply.success = 1 then pure (some (reply.ticket.take (transferTicketLen-1)))
        else do
          perform (.print reply.message)
          pure none
    else do
      print "发送下载分片票据请求失败"
      pure none

def partTask (m : MultipartTaskMeta) (p : MultipartPartInfo) (ticket : Text) : GetsPartTask :=
  ⟨p.partIndex,p.sourceIp,p.sourcePort,ticket,m.fileName,p.partFilePath⟩

/-- A task for every part that is not finished, with a ticket for its range. -/
def requestTickets (m : MultipartTaskMeta) :
    List PartIndex → Client (Option (List GetsPartTask))
  | [] => pure (some [])
  | i::is =>
    if isPartFinished (m.parts i) then requestTickets m is
    else do
      match ← requestGetsRangeTicket m.fileName (m.parts i) with
      | none => pure none
      | some ticket =>
        match ← requestTickets m is with
        | none => pure none
        | some tasks => pure (some (partTask m (m.parts i) ticket::tasks))

/-- The tail of `handle_gets_command`, with the manager thread it starts. -/
def startDownload (localFilePath : Text) (m : MultipartTaskMeta) : Client Unit := do
  match ← requestTickets m m.indices with
  | none => print "申请下载分片票据失败。"
  | some tasks =>
    if ← perform .createThread then do
      print "多点下载任务已启动。"
      getsManagerThreadFunc localFilePath m tasks
    else print "创建多点下载后台线程失败"

/-- Preparation and progress of the task, `none` when either fails. -/
def prepareDownload (clientFileDir : Text) (plan : MultiGetsPlan) :
    Client (Option MultipartTaskMeta) := do
  match ← multipartTaskPrepare clientFileDir plan with
  | none => do
    print "准备多点下载任务失败"
    pure none
  | some m =>
    match ← multipartTaskSyncProgress m with
    | (true,m) => pure (some m)
    | (false,_) => do
      print "刷新多点下载进度失败"
      pure none

def handleGetsCommand (clientFileDir arg : Text) : Client Unit := do
  match buildClientLocalFilePath maxPathLen clientFileDir arg with
  | none => print "下载命令只需要输入文件名。"
  | some localFilePath =>
    match ← requestMultiGetsPlan arg with
    | none => pure ()
    | some plan =>
      match ← prepareDownload clientFileDir plan with
      | none => pure ()
      | some m => startDownload localFilePath m

end Client

end WindCloud
