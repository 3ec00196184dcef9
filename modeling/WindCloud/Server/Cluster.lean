import WindCloud.Server.Session
import WindCloud.Server.Steps

/-!
# Several server processes

Servers of a family share the database and the token key; each has its own
store, connections and ticket table. The first clock reading of every call is
kept beside the state.
-/

set_option autoImplicit false

namespace WindCloud
open CString Effect Function

structure Cluster (κ ι : Type) where
  db : Db
  minted : List Text
  drawn : List (List ℕ)
  nodes : κ → Node ι

variable {κ ι : Type} [DecidableEq κ] [DecidableEq ι] (lib : Library)

def Cluster.view (s : Cluster κ ι) (k : κ) : World ι := ⟨s.db,s.minted,s.drawn,s.nodes k⟩

def Cluster.put (s : Cluster κ ι) (k : κ) (w : World ι) : Cluster κ ι :=
  ⟨w.db,w.minted,w.drawn,update s.nodes k w.node⟩

/-- Thread `a.2` of server `a.1` performs an operation. -/
def clusterExecute (o : Op) (a : κ × ι) (s : Cluster κ ι) (c : Choice) :
    Option (o.Res × Cluster κ ι) :=
  (execute lib o a.2 (s.view a.1) c).map fun rw => (rw.1,s.put a.1 rw.2)

def cluster (κ ι : Type) [DecidableEq κ] [DecidableEq ι] (lib : Library) :
    Machine Op Op.Res (κ × ι) (Cluster κ ι) Choice :=
  ⟨clusterExecute lib⟩

def noteClock : (o : Op) → o.Res → Cluster κ ι → Option ℤ → Option ℤ
  | .time, t, _, none => some (show ℤ from t)
  | _, _, _, clock => clock

def clockedCluster (κ ι : Type) [DecidableEq κ] [DecidableEq ι] (lib : Library) :
    Machine Op Op.Res (κ × ι) (Cluster κ ι × (κ × ι → Option ℤ)) Choice :=
  (cluster κ ι lib).recorded noteClock

/-- Random values are never drawn twice, and a token that decodes was made by
one of the servers. -/
def Genuine (_ : κ × ι) (o : Op) (s : Cluster κ ι × (κ × ι → Option ℤ)) (c : Choice) : Prop :=
  match o, c with
  | .randBytes _, .bytes bs => bs ∉ s.1.drawn
  | .jwtDecode iss aud secretKey token, .value now =>
    lib.decode iss aud secretKey token now = none ∨ token ∈ s.1.minted
  | _, _ => True

/-- The names the library writes into a token itself. -/
def reservedClaims : List Text :=
  ["alg".toList,"typ".toList,"iss".toList,"sub".toList,"aud".toList,"exp".toList,"nbf".toList,
    "iat".toList,"jti".toList]

/-- The library decodes what it encoded: claims with names of their own are
found in the token. -/
structure Library.Faithful (lib : Library) : Prop where
  claims : ∀ p token now cs, (p.claims.map (·.key)).Nodup →
    (∀ c ∈ p.claims, c.key ∉ reservedClaims) → lib.encode p = some token →
    lib.decode p.iss p.aud p.secretKey token now = some cs →
    ∀ c ∈ p.claims, getClaim cs c.key = some c.value

inductive TicketCall where
  | issue (g : Grant) (ticketSize : ℕ)
  | verify (ticket : Text) (fullPathSize ipSize portSize : ℕ)
  | rangePrepare (ctx : ClientContext) (arg : Text)
  | transferPrepare (ctx : ClientContext) (cmdType : CmdType) (arg : Text)

inductive TicketOutcome where
  | issued (ticket : Option Text)
  | verified (grant : Option Grant)
  | replied
  deriving DecidableEq, Repr

namespace TicketCall

def program : TicketCall → Server TicketOutcome
  | issue g size => do
    let ticket ← issueTransferTicket g size
    pure (.issued ticket)
  | verify ticket fullPathSize ipSize portSize => do
    let grant ← verifyAndConsumeTransferTicket ticket fullPathSize ipSize portSize
    pure (.verified grant)
  | rangePrepare ctx arg => do
    handleGetsRangeTicketPrepare ctx arg
    pure .replied
  | transferPrepare ctx cmdType arg => do
    handleTransferPrepare ctx cmdType arg
    pure .replied

end TicketCall

end WindCloud
