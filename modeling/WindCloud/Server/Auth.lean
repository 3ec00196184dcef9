import WindCloud.Server.Ticket

/-!
# Registration and login

The functions of `auth.c`. Their last parameter is an output parameter; the
programs return the value it has afterwards.
-/

set_option autoImplicit false

namespace WindCloud
open CString Effect

def generateSalt : Server Text := do
  match ← perform (.randBytes 16) with
  | some bs => pure (Hex.hexLower bs)
  | none => do
    let _ ← perform .time
    let bs ← perform (.rand 16)
    pure (Hex.hexLower bs)

def hashPasswordWithSalt (password salt : Text) : Server Text := do
  let digest ← perform (.sha256 ((password ++ salt).take 255))
  pure (Hex.hexLower digest)

/-- User name and password of `name/password`. -/
def splitCredentials (data : Text) : Option (Text × Text) :=
  match strtok ['/'] data with
  | none => none
  | some (userName,rest) =>
    match strtok ['\r','\n','\t'] rest with
    | none => none
    | some (userPasswd,_) => some (userName,userPasswd)

def registeredId (userName : Text) : Server ℤ := do
  match ← daoGetUserByName userName with
  | none => pure (-1)
  | some (id,_) => pure id

def handleRegister (data : Text) : Server ℤ := do
  match splitCredentials data with
  | none => do
    sendMsg "错误：用户名或密码格式不正确".toList
    pure (-1)
  | some (userName,userPasswd) => do
    let salt ← generateSalt
    let passwordHash ← hashPasswordWithSalt userPasswd salt
    if ← daoInsertUser userName passwordHash salt then do
      let userId ← registeredId userName
      sendMsg "注册成功！请继续登录。".toList
      pure userId
    else do
      sendMsg "注册失败".toList
      pure (-1)

def sendAuthReplyPacket (p : AuthReply) : Server Unit := do
  let _ ← perform (.send (.auth p))
  pure ()

def refuseLogin (message : String) : Server ℤ := do
  sendAuthReplyPacket (initAuthReplyPacket 0 (-1) message none)
  pure (-1)

def acceptLogin (userId : ℤ) : Server ℤ := do
  match ← jwtCreateForUser userId tokenLen with
  | none => refuseLogin "登录失败：生成令牌失败"
  | some token => do
    sendAuthReplyPacket (initAuthReplyPacket 1 userId "登录成功" (some token))
    pure userId

def handleLogin (data : Text) : Server ℤ := do
  match splitCredentials data with
  | none => refuseLogin "错误：用户名或密码格式不正确"
  | some (userName,userPasswd) =>
    match ← daoGetUserByName userName with
    | none => refuseLogin "用户名不存在"
    | some (dbUserId,storedHash,salt) => do
      let computedHash ← hashPasswordWithSalt userPasswd salt
      if computedHash = storedHash then acceptLogin dbUserId else refuseLogin "密码错误"

end WindCloud
