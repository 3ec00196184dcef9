import WindCloud.Server.Session

/-!
# Downloads and transfer connections

`handle_gets_common` of `file_transfer.c` and `handle_transfer_request` of
`session.c`. A sum or difference of `off_t` values which does not fit has no
result. A sending loop makes at most as many passes as bytes are missing.
-/

set_option autoImplicit false

namespace WindCloud
open CString Effect

/-- The value of a signed 64-bit expression. -/
def off (n : ℤ) : Server ℤ := if offMin ≤ n ∧ n ≤ offMax then pure n else overflow

def sendGetsFailedPacket (fileName : Text) : Server Unit := do
  let _ ← sendFilePacket (initFilePacket .gets fileName (-1) 0 none)
  pure ()

/-- The loop of `send_file_by_sendfile`; the call moves `current_offset` on. -/
def sendfileLoop : ℕ → (currentOffset remaining : ℤ) → Server Bool
  | 0, _, _ => pure true
  | passes+1, currentOffset, remaining =>
    if 0 < remaining then do
      let sent ← perform (.sendfile currentOffset remaining)
      if sent = [] then pure false
      else do
        let remaining ← off (remaining-sent.length)
        sendfileLoop passes (currentOffset+sent.length) remaining
    else pure true

def sendFileBySendfile (offset fileSize : ℤ) : Server Bool := do
  let remaining ← off (fileSize-offset)
  sendfileLoop remaining.toNat offset remaining

/-- The loop of `send_full`, `total` of `len` mapped bytes from `pos` on being sent. -/
def sendFull (pos len : ℤ) : ℕ → ℕ → Server Bool
  | 0, _ => pure true
  | passes+1, total =>
    if total < len then do
      let sent ← perform (.sendMapped (pos+total) (len-total))
      if sent = [] then pure false else sendFull pos len passes (total+sent.length)
    else pure true

def sendMappedLoop (offset remaining : ℤ) : ℕ → ℕ → Server Bool
  | 0, _ => pure true
  | passes+1, sentCount =>
    if sentCount < remaining then do
      let _ ← off (remaining-sentCount)
      if ← sendFull (offset+sentCount) (once remaining sentCount)
          (once remaining sentCount).toNat 0 then
        sendMappedLoop offset remaining passes (sentCount+(once remaining sentCount).toNat)
      else pure false
    else pure true

def sendFileByMmap (offset fileSize : ℤ) : Server Bool := do
  let remaining ← off (fileSize-offset)
  if remaining ≤ 0 then pure true
  else if ← perform (.mmap fileSize) then sendMappedLoop offset remaining remaining.toNat 0
  else pure false

def sendFrom (logicalTotalSize offset fileSize : ℤ) : Server Bool :=
  if largeFileMmapThreshold < logicalTotalSize then sendFileByMmap offset fileSize
  else sendFileBySendfile offset fileSize

/-- The part of the range the client has already, as far as it is credible. -/
def resumeOffset (offset logicalTotalSize : ℤ) : ℤ :=
  if offset < 0 ∨ logicalTotalSize < offset then 0 else offset

/-- The download from the client's file packet on. -/
def answerOffset (effectiveStart effectiveEnd logicalTotalSize : ℤ) : Server Unit := do
  match ← perform .recvFile with
  | none => close
  | some packet => do
    let offset ← off (resumeOffset packet.offset logicalTotalSize+effectiveStart)
    let fileSize ← off (effectiveEnd+1)
    let _ ← sendFrom logicalTotalSize offset fileSize
    close

def sendRange (arg : Text) (effectiveStart effectiveEnd : ℤ) : Server Unit := do
  let span ← off (effectiveEnd-effectiveStart)
  let logicalTotalSize ← off (span+1)
  if ← sendFilePacket (initFilePacket .gets arg logicalTotalSize 0 none) then
    answerOffset effectiveStart effectiveEnd logicalTotalSize
  else close

/-- The download from the opened file on. -/
def serveFile (arg : Text) (useRange : Bool) (rangeStart rangeEnd : ℤ) : Server Unit := do
  match ← perform .fstat with
  | none => do
    close
    sendGetsFailedPacket arg
  | some size => do
    let effectiveEnd ← off (size-1)
    if useRange then
      if rangeStart < 0 ∨ rangeEnd < rangeStart ∨ size ≤ rangeEnd then do
        close
        sendGetsFailedPacket arg
      else sendRange arg rangeStart rangeEnd
    else sendRange arg 0 effectiveEnd

def handleGetsCommon (ctx : ClientContext) (arg : Text) (useRange : Bool)
    (rangeStart rangeEnd : ℤ) : Server Unit := do
  match buildFullVirtualPath fullPathLen ctx arg with
  | none => sendGetsFailedPacket arg
  | some fullPath =>
    match ← daoGetFileInfoByPath ctx.userId fullPath with
    | none => sendGetsFailedPacket arg
    | some (_,fileId) =>
      match ← daoFileGetInfoById fileId with
      | none => sendGetsFailedPacket arg
      | some (sha256sum,_) =>
        match ← buildStoreFilePath sha256sum with
        | none => sendGetsFailedPacket arg
        | some realPath =>
          if ← perform (.openRead realPath) then serveFile arg useRange rangeStart rangeEnd
          else sendGetsFailedPacket arg

def handleGets (ctx : ClientContext) (arg : Text) : Server Unit :=
  handleGetsCommon ctx arg false 0 (-1)

def handleGetsRange (ctx : ClientContext) (arg : Text) (rangeStart rangeEnd : ℤ) : Server Unit :=
  handleGetsCommon ctx arg true rangeStart rangeEnd

def failGetsRequest (fileName : Text) : Server Unit := sendGetsFailedPacket fileName

/-- The download branch of `handle_transfer_request`. -/
def serveDownload (ctx : ClientContext) (fileName : Text) (rangeStart rangeEnd : ℤ) :
    Server Unit :=
  if rangeStart ≤ rangeEnd ∧ 0 ≤ rangeEnd then handleGetsRange ctx fileName rangeStart rangeEnd
  else handleGets ctx fileName

/-- A transfer connection after the checks of its ticket. -/
def serveTransfer (g : Grant) : Server Unit := do
  match ← buildTransferContext g.userId g.fullPath with
  | none =>
    if g.cmdType = CmdType.gets.code then failGetsRequest (splitName g.fullPath)
    else if g.cmdType = CmdType.puts.code then
      failPutsRequest (splitName g.fullPath) "上传失败：目标目录不存在".toList
    else pure ()
  | some (ctx,fileName) =>
    if g.cmdType = CmdType.gets.code then serveDownload ctx fileName g.rangeStart g.rangeEnd
    else if g.cmdType = CmdType.puts.code then handlePuts ctx fileName
    else pure ()

def handleTransferRequest : Server Unit := do
  match ← perform .recvAuth with
  | none => pure ()
  | some ticket =>
    match ← verifyAndConsumeTransferTicket ticket fullPathLen 64 16 with
    | none => pure ()
    | some g =>
      match ← getCurrentServerAddress 64 16 with
      | none => pure ()
      | some (ip,port) =>
        if g.sourceIp = ip ∧ g.sourcePort = port then serveTransfer g else pure ()

end WindCloud
