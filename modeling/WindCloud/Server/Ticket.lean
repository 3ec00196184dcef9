import WindCloud.Lib.Decimal
import WindCloud.Server.FileTransfer

/-!
# Transfer tickets

The functions of `transfer_ticket.c` and `jwt_utils.c`. A ticket is a token
that carries what it grants and a random number; the number is entered in the
table of the process that issues it and taken out when it is used.
-/

set_option autoImplicit false

namespace WindCloud
open CString Effect

def jwtSecretKey : Text := "windcloud jwt secret key".toList
def loginJwtIssuer : Text := "WindCloud".toList
def loginJwtAudience : Text := "WindCloudClient".toList
def loginJwtExpireSeconds : ℤ := 3600
def transferTicketIssuer : Text := "WindCloudTransfer".toList
def transferTicketAudience : Text := "WindCloudTransferClient".toList

structure Grant where
  userId : ℤ
  cmdType : ℤ
  fullPath : Text
  rangeStart : ℤ
  rangeEnd : ℤ
  sourceIp : Text
  sourcePort : Text
  deriving DecidableEq, Repr

def getClaim (claims : List JwtClaim) (key : Text) : Option Text :=
  (claims.find? fun c => c.key = key).map (·.value)

def copyStringClaim (claims : List JwtClaim) (key : Text) (size : ℕ) : Option Text :=
  match getClaim claims key with
  | none => none
  | some v => bounded size v

def loginParams (userId now : ℤ) : JwtParams where
  iss := loginJwtIssuer
  aud := loginJwtAudience
  iat := now
  exp := now+loginJwtExpireSeconds
  claims := [⟨"uid".toList,decimal userId⟩]
  secretKey := jwtSecretKey

def jwtCreateForUser (userId : ℤ) (tokenSize : ℕ) : Server (Option Text) := do
  let now ← perform .time
  match ← perform (.jwtEncode (loginParams userId now)) with
  | none => pure none
  | some token => pure (bounded tokenSize token)

def ticketClaims (g : Grant) (ticketId : Text) : List JwtClaim :=
  [⟨"uid".toList,decimal g.userId⟩,⟨"cmd".toList,decimal g.cmdType⟩,
    ⟨"path".toList,g.fullPath⟩,⟨"tid".toList,ticketId⟩,
    ⟨"start".toList,decimal g.rangeStart⟩,⟨"end".toList,decimal g.rangeEnd⟩,
    ⟨"sip".toList,g.sourceIp⟩,⟨"sport".toList,g.sourcePort⟩]

def ticketParams (g : Grant) (ticketId : Text) (now : ℤ) : JwtParams where
  iss := transferTicketIssuer
  aud := transferTicketAudience
  iat := now
  exp := now+transferTicketExpireSeconds
  claims := ticketClaims g ticketId
  secretKey := jwtSecretKey

def jwtCreateTransferTicket (g : Grant) (ticketId : Text) (ticketSize : ℕ) :
    Server (Option Text) := do
  let now ← perform .time
  if g.fullPath = [] ∨ g.sourceIp = [] ∨ g.sourcePort = [] ∨ ticketId = [] ∨ ticketSize = 0 then
    pure none
  else
    match ← perform (.jwtEncode (ticketParams g ticketId now)) with
    | none => pure none
    | some ticket => pure (bounded ticketSize ticket)

/-- The grant and the number in the claims of a decoded ticket. -/
def readTicket (claims : List JwtClaim) (fullPathSize ipSize portSize idSize : ℕ) :
    Option (Grant × Text) := do
  let uid ← getClaim claims "uid".toList
  let cmd ← getClaim claims "cmd".toList
  let first ← getClaim claims "start".toList
  let last ← getClaim claims "end".toList
  let fullPath ← copyStringClaim claims "path".toList fullPathSize
  let sourceIp ← copyStringClaim claims "sip".toList ipSize
  let sourcePort ← copyStringClaim claims "sport".toList portSize
  let ticketId ← copyStringClaim claims "tid".toList idSize
  some (⟨atoll uid,atoll cmd,fullPath,atoll first,atoll last,sourceIp,sourcePort⟩,ticketId)

def jwtVerifyTransferTicket (ticket : Text) (fullPathSize ipSize portSize idSize : ℕ) :
    Server (Option (Grant × Text)) := do
  if ticket = [] then pure none
  else
    match ← perform
      (.jwtDecode transferTicketIssuer transferTicketAudience jwtSecretKey ticket) with
    | none => pure none
    | some claims => pure (readTicket claims fullPathSize ipSize portSize idSize)

def generateTicketId : Server (Option Text) := do
  match ← perform (.randBytes 16) with
  | none => pure none
  | some bs => pure (some (Hex.hexLower bs))

/-- The entry of a ticket that has been signed. -/
def enterTicket (now : ℤ) (ticketId ticket : Text) : Server (Option Text) := do
  if ← perform (.ticketRegister now ticketId) then pure (some ticket) else pure none

def issueTransferTicket (g : Grant) (ticketSize : ℕ) : Server (Option Text) := do
  let now ← perform .time
  if g.fullPath = [] ∨ g.sourceIp = [] ∨ g.sourcePort = [] ∨ ticketSize = 0 then pure none
  else
    match ← generateTicketId with
    | none => pure none
    | some ticketId =>
      match ← jwtCreateTransferTicket g ticketId ticketSize with
      | none => pure none
      | some ticket => enterTicket now ticketId ticket

def verifyAndConsumeTransferTicket (ticket : Text) (fullPathSize ipSize portSize : ℕ) :
    Server (Option Grant) := do
  let now ← perform .time
  match ← jwtVerifyTransferTicket ticket fullPathSize ipSize portSize 33 with
  | none => pure none
  | some (grant,ticketId) =>
    if ← perform (.ticketConsume now ticketId) then pure (some grant) else pure none

end WindCloud
