import WindCloud.Client.Gets
import WindCloud.Lib.Turns

/-!
# The command line

`main` of `client.c` from the menu on, the functions of
`client_command_handle.c`, and `handle_puts_command` of `client_puts.c`, as the
main thread runs them: a background thread is started and left alone. The main
thread also receives login results and text replies.
-/

set_option autoImplicit false

namespace WindCloud
open CString Effect

/-- `get_cmd_type` of `protocol.c`. -/
def getCmdType (cmdStr : Text) : CmdType :=
  if cmdStr = "pwd".toList then .pwd
  else if cmdStr = "cd".toList then .cd
  else if cmdStr = "ls".toList then .ls
  else if cmdStr = "gets".toList then .gets
  else if cmdStr = "puts".toList then .puts
  else if cmdStr = "touch".toList then .touch
  else if cmdStr = "rm".toList then .rm
  else if cmdStr = "mkdir".toList then .mkdir
  else if cmdStr = "rmdir".toList then .rmdir
  else if cmdStr = "login".toList then .login
  else if cmdStr = "register".toList then .register
  else .invalid

namespace Client

inductive ReplyOp where
  | recvAuth
  | recvReply
  deriving DecidableEq, Repr

abbrev ReplyOp.Res : ReplyOp → Type
  | .recvAuth => Option AuthReply
  | .recvReply => Option Text

abbrev ConsoleOp := Op ⊕ ReplyOp

abbrev ConsoleOp.Res : ConsoleOp → Type
  | .inl o => o.Res
  | .inr o => o.Res

end Client

abbrev Console (α : Type) := Program Client.ConsoleOp Client.ConsoleOp.Res α

namespace Client

structure ClientState where
  loggedIn : Bool
  userId : ℤ
  token : Text
  currentPath : Text
  deriving DecidableEq, Repr

structure ClientInput where
  cmd : Text
  arg : Text
  deriving DecidableEq, Repr

def ofClient {α : Type} (p : Client α) : Console α := p.rename Sum.inl fun _ r => r

def say (msg : String) : Console Unit := ofClient (print msg)

def sayText (msg : Text) : Console Unit := ofClient (perform (.print msg))

def recvAuthReply : Console (Option AuthReply) :=
  Program.perform (Sum.inr ReplyOp.recvAuth : ConsoleOp)

def recvCommand : Console (Option Text) :=
  Program.perform (Sum.inr ReplyOp.recvReply : ConsoleOp)

def parseInput (input : Text) : ClientInput :=
  let (cmd,rest) := scanWord 99 input
  ⟨cmd,(scanWord 199 rest).1⟩

def setLoginSuccessState (state : ClientState) (userId : ℤ) (token : Text) : ClientState :=
  { state with
    loggedIn := true
    userId := userId
    token := token.take (tokenLen-1)
    currentPath := "/".toList }

/-- The path in `next_path`, an array of 512 bytes. -/
def nextPath (currentPath arg : Text) : Text :=
  if arg = "..".toList then
    match splitLast '/' currentPath with
    | none => currentPath
    | some (before,_) => if before = [] then "/".toList else before
  else if arg.head? = some '/' then arg.take 511
  else if currentPath = "/".toList then ('/'::arg).take 511
  else (currentPath ++ '/'::arg).take 511

def updateClientPathAfterCd (state : ClientState) (arg : Text) : ClientState :=
  if arg = ".".toList then state
  else if arg = "..".toList ∧ state.currentPath = "/".toList then state
  else if 256 ≤ (nextPath state.currentPath arg).length then state
  else { state with currentPath := nextPath state.currentPath arg }

/-- The message that refuses the input, if it is refused. -/
def validateCommandArgs (parsed : ClientInput) : Option String :=
  if parsed.cmd = "gets".toList ∧ parsed.arg = [] then some "用法: gets <文件名>"
  else if parsed.cmd = "puts".toList ∧ parsed.arg = [] then some "用法: puts <文件名>"
  else if ["cd","rm","mkdir","touch","rmdir"].any (fun name => parsed.cmd = name.toList) ∧
      parsed.arg = [] then
    some "该命令需要参数"
  else if ["puts","gets","mkdir","touch","rm","rmdir"].any (fun name => parsed.cmd = name.toList) ∧
      maxVfsNameLen < parsed.arg.length then
    some "文件名或目录名过长，最大长度为 30"
  else none

def handleLoginCommand (state : ClientState) (arg : Text) : Console (ClientState × ℤ) := do
  if ← ofClient (sendCommand .login arg) then
    match ← recvAuthReply with
    | none => do
      say "接收登录结果失败"
      pure (state,-1)
    | some reply => do
      sayText reply.message
      if reply.success = 1 then pure (setLoginSuccessState state reply.userId reply.token,1)
      else pure (state,0)
  else do
    say "发送登录命令失败"
    pure (state,-1)

/-- The reply's text, and whether it speaks of success. -/
def recvServerReply : Console (Option (Text × ℤ)) := do
  match ← recvCommand with
  | none => do
    say "接收服务端响应失败"
    pure none
  | some data => pure (some (data,if isInfix "成功".toList data then 1 else 0))

def handleNormalCommand (state : ClientState) (cmdType : CmdType) (arg : Text) :
    Console (ClientState × ℤ) := do
  if ← ofClient (sendCommand cmdType arg) then
    match ← recvServerReply with
    | none => pure (state,-1)
    | some (data,ret) => do
      sayText data
      if cmdType = .cd ∧ ret = 1 then pure (updateClientPathAfterCd state arg,ret)
      else pure (state,ret)
  else do
    say "发送命令失败"
    pure (state,-1)

def requestTransferTicket (cmdType : CmdType) (arg : Text) (ticketSize : ℕ) :
    Client (Option Text) := do
  if ← sendCommand cmdType arg then
    match ← perform .recvTicket with
    | none => do
      print "接收传输票据失败"
      pure none
    | some reply => do
      perform (.print reply.message)
      if reply.success = 1 then pure (some (reply.ticket.take (ticketSize-1))) else pure none
  else do
    print "发送传输预请求失败"
    pure none

def handlePutsCommand (clientFileDir arg : Text) : Client ℤ := do
  match buildClientLocalFilePath maxPathLen clientFileDir arg with
  | none => do
    print "上传命令只需要输入文件名。"
    pure (-1)
  | some localFilePath =>
    if ← perform (.access localFilePath) then
      match ← requestTransferTicket .puts arg transferTicketLen with
      | none => pure (-1)
      | some _ =>
        if ← perform .createThread then do
          print "上传任务已启动。"
          pure 0
        else do
          print "创建上传线程失败"
          pure (-1)
    else do
      print "本地文件不存在，无法上传。"
      pure (-1)

/-- The tail of `handle_gets_command`; a started thread works on what is returned. -/
def launchDownload (localFilePath : Text) (m : MultipartTaskMeta) :
    Client (Option (Text × MultipartTaskMeta × List GetsPartTask)) := do
  match ← requestTickets m m.indices with
  | none => do
    print "申请下载分片票据失败。"
    pure none
  | some tasks =>
    if ← perform .createThread then do
      print "多点下载任务已启动。"
      pure (some (localFilePath,m,tasks))
    else do
      print "创建多点下载后台线程失败"
      pure none

/-- `handle_gets_command` without the thread it starts. -/
def requestDownload (clientFileDir arg : Text) :
    Client (Option (Text × MultipartTaskMeta × List GetsPartTask)) := do
  match buildClientLocalFilePath maxPathLen clientFileDir arg with
  | none => do
    print "下载命令只需要输入文件名。"
    pure none
  | some localFilePath =>
    match ← requestMultiGetsPlan arg with
    | none => pure none
    | some plan =>
      match ← prepareDownload clientFileDir plan with
      | none => pure none
      | some m => launchDownload localFilePath m

def processCommand (clientFileDir : Text) (state : ClientState) (input : Text) :
    Console (ClientState × ℤ) := do
  let parsed := parseInput input
  match validateCommandArgs parsed with
  | some msg => do
    say msg
    pure (state,0)
  | none =>
    match getCmdType parsed.cmd with
    | .invalid => do
      say "无效命令"
      pure (state,0)
    | .login => handleLoginCommand state parsed.arg
    | .gets => do
      let started ← ofClient (requestDownload clientFileDir parsed.arg)
      pure (state,if started.isSome then 0 else -1)
    | .puts => do
      let ret ← ofClient (handlePutsCommand clientFileDir parsed.arg)
      pure (state,ret)
    | cmdType => handleNormalCommand state cmdType parsed.arg

/-- The menu reads lines until a login succeeds; what follows is left to the
command loop. -/
def clientLoginMenu (clientFileDir : Text) :
    List Text → ClientState → Console (Option (ClientState × List Text))
  | [], _ => pure none
  | input::rest, state =>
    if input = "quit".toList then do
      say "再见！"
      pure none
    else if "login ".toList.isPrefixOf input ∨ "register ".toList.isPrefixOf input then do
      let (state,ret) ← processCommand clientFileDir state input
      if ret = 1 ∧ "login ".toList.isPrefixOf input then pure (some (state,rest))
      else clientLoginMenu clientFileDir rest state
    else clientLoginMenu clientFileDir rest state

def commandLoop (clientFileDir : Text) : List Text → ClientState → Console ClientState
  | [], state => pure state
  | input::rest, state =>
    if input = "quit".toList ∨ input = "exit".toList then do
      say "再见！"
      pure state
    else if input = [] then commandLoop clientFileDir rest state
    else do
      let (state,_) ← processCommand clientFileDir state input
      commandLoop clientFileDir rest state

/-- The main thread from the menu to the end of its input. -/
def mainThread (clientFileDir : Text) (inputs : List Text) : Console Unit := do
  match ← clientLoginMenu clientFileDir inputs ⟨false,0,[],"/".toList⟩ with
  | none => pure ()
  | some (state,rest) => do
    let _ ← commandLoop clientFileDir rest state
    pure ()

end Client

end WindCloud
