import WindCloud.Lib.Buffer
import WindCloud.Lib.Inodes
import WindCloud.Lib.Pool
import WindCloud.Server.Schema
import WindCloud.Server.TicketTable

/-!
# The server's operations

A server function is a program over single statements, single file operations
on the store, single transfers on the caller's connection, clock readings and
the locked sections of the ticket table. An outcome says whether the operation
fails, how many bytes it moves, or which value the environment supplies.
-/

set_option autoImplicit false

namespace WindCloud
open CString Effect Function

structure JwtClaim where
  key : Text
  value : Text
  deriving DecidableEq, Repr

/-- The members of `l8w8jwt_encoding_params` the server sets. -/
structure JwtParams where
  iss : Text
  aud : Text
  iat : ℤ
  exp : ℤ
  claims : List JwtClaim
  secretKey : Text
  deriving DecidableEq, Repr

/-- The functions of the cryptographic libraries. -/
structure Library where
  sha256 : Text → List ℕ
  encode : JwtParams → Option Text
  decode : (iss aud secretKey token : Text) → (now : ℤ) → Option (List JwtClaim)

inductive StatResult where
  | missing
  | regular (size : ℤ)
  | failed
  deriving DecidableEq, Repr

inductive Op where
  | sql (s : Statement)
  | storeDir
  | configAddress
  | stat (path : Text)
  | openUpload (path : Text)
  | openEmpty (path : Text)
  | openRead (path : Text)
  | fstat
  | ftruncate (size : ℤ)
  | mmap (size : ℤ)
  | lseek (pos : ℤ)
  | write (buf : Content)
  | recvMapped (pos once : ℤ)
  | close
  | unlink (path : Text)
  | recvAuth
  | recvFile
  | recv (once : ℤ)
  | send (p : Packet)
  | sendfile (pos count : ℤ)
  | sendMapped (pos once : ℤ)
  | time
  | randBytes (count : ℕ)
  | rand (count : ℕ)
  | sha256 (t : Text)
  | jwtEncode (p : JwtParams)
  | jwtDecode (iss aud secretKey token : Text)
  | ticketRegister (now : ℤ) (ticketId : Text)
  | ticketConsume (now : ℤ) (ticketId : Text)
  | overflow
  deriving DecidableEq, Repr

/-- What the caller reads of an operation's result. A transfer that ends or
fails moves no bytes; of the bytes `sendfile` sends the caller reads the number.
An `overflow` of a fixed buffer or of an `off_t` has no result. -/
abbrev Op.Res : Op → Type
  | .sql s => s.Res
  | .storeDir => Option Text
  | .configAddress => Text × Text
  | .stat _ => StatResult
  | .fstat => Option ℤ
  | .openUpload _ | .openEmpty _ | .openRead _ | .ftruncate _ | .mmap _ | .lseek _ | .unlink _ | .send _
  | .ticketRegister _ _ | .ticketConsume _ _ => Bool
  | .write _ | .recvMapped _ _ => ℕ
  | .close => Unit
  | .recvAuth => Option Text
  | .recvFile => Option FilePacket
  | .recv _ | .sendfile _ _ | .sendMapped _ _ => Content
  | .time => ℤ
  | .randBytes _ => Option (List ℕ)
  | .rand _ => List ℕ
  | .sha256 _ => List ℕ
  | .jwtEncode _ => Option Text
  | .jwtDecode _ _ _ _ => Option (List JwtClaim)
  | .overflow => Empty

inductive Choice where
  | ok
  | fault
  | count (n : ℕ)
  | value (n : ℤ)
  | bytes (bs : List ℕ)
  deriving DecidableEq, Repr

abbrev Server (α : Type) := Program Op Op.Res α

/-- The peer of a connection: its ticket, the file packet it announces, the
bytes it sends after the server's file packet, and what it was sent. -/
structure Connection where
  auth : Text
  hello : FilePacket
  answer : FilePacket → Content
  stream : Content
  sent : List Packet

/-- An open store file. `extended` says that it was made longer through this
descriptor and not cut through it since. -/
structure Descriptor where
  inode : ℕ
  pos : ℕ
  extended : Bool
  deriving DecidableEq, Repr

/-- One server process with its store; `unlinked` lists the paths it unlinked. -/
structure Node (ι : Type) where
  storeDir : Text
  address : Text × Text
  store : Inodes Text Content
  desc : ι → Option Descriptor
  conn : ι → Connection
  tickets : TicketTable
  unlinked : List Text

/-- A server with its database. `minted` lists the tokens the library made and
`drawn` the random values it returned. -/
structure World (ι : Type) where
  db : Db
  minted : List Text
  drawn : List (List ℕ)
  node : Node ι

section Updates

variable {ι : Type} [DecidableEq ι]

def Node.setDesc (n : Node ι) (i : ι) (d : Option Descriptor) : Node ι :=
  { n with desc := update n.desc i d }

def Node.setConn (n : Node ι) (i : ι) (c : Connection) : Node ι :=
  { n with conn := update n.conn i c }

def Node.deliver (n : Node ι) (i : ι) (p : Packet) : Node ι :=
  n.setConn i
    { n.conn i with
      stream := match p with
        | .file q => (n.conn i).answer q
        | _ => (n.conn i).stream
      sent := (n.conn i).sent ++ [p] }

def Node.consume (n : Node ι) (i : ι) (k : ℕ) : Node ι :=
  n.setConn i { n.conn i with stream := (n.conn i).stream.drop k }

def Node.resize (n : Node ι) (i : ι) (d : Descriptor) (size : ℕ) : Node ι :=
  { n with
    store := n.store.modify d.inode (Buffer.resize '\x00' (n.store.data d.inode) size)
    desc := update n.desc i (some
      { d with
        extended := if (n.store.data d.inode).length < size then true
          else if size < (n.store.data d.inode).length then false
          else d.extended }) }

def Node.append (n : Node ι) (i : ι) (d : Descriptor) (bs : Content) : Node ι :=
  { n with
    store := n.store.modify d.inode (Buffer.splice '\x00' (n.store.data d.inode) d.pos bs)
    desc := update n.desc i (some { d with pos := d.pos+bs.length }) }

def Node.patch (n : Node ι) (d : Descriptor) (pos : ℕ) (bs : Content) : Node ι :=
  { n with store := n.store.modify d.inode (Buffer.patch (n.store.data d.inode) pos bs) }

def World.setNode (w : World ι) (n : Node ι) : World ι := { w with node := n }

end Updates

section Execution

variable {ι : Type} [DecidableEq ι] (lib : Library)

def execute : (o : Op) → ι → World ι → Choice → Option (o.Res × World ι)
  | .sql s, _, w, .ok => some ((s.exec w.db).1,{ w with db := (s.exec w.db).2 })
  | .sql s, _, w, .fault => some (s.failed,w)
  | .storeDir, _, w, .ok => some (some w.node.storeDir,w)
  | .storeDir, _, w, .fault => some (none,w)
  | .configAddress, _, w, .ok => some (w.node.address,w)
  | .stat path, _, w, .ok =>
    some (match w.node.store.read path with
      | none => .missing
      | some f => .regular f.length,w)
  | .stat _, _, w, .fault => some (.failed,w)
  | .openUpload path, i, w, .ok =>
    some (true,w.setNode
      { w.node with
        store := (w.node.store.openOrCreate path []).2
        desc := update w.node.desc i
          (some ⟨(w.node.store.openOrCreate path []).1,0,false⟩) })
  | .openUpload _, _, w, .fault => some (false,w)
  | .openEmpty path, _, w, .ok =>
    some (true,w.setNode { w.node with store := (w.node.store.openOrCreate path []).2 })
  | .openEmpty _, _, w, .fault => some (false,w)
  | .openRead path, i, w, .ok =>
    some (match w.node.store.names path with
      | none => (false,w)
      | some n => (true,w.setNode (w.node.setDesc i (some ⟨n,0,false⟩))))
  | .openRead _, _, w, .fault => some (false,w)
  | .fstat, i, w, .ok =>
    (w.node.desc i).map fun d => (some ((w.node.store.data d.inode).length : ℤ),w)
  | .fstat, _, w, .fault => some (none,w)
  | .ftruncate size, i, w, .ok =>
    (w.node.desc i).map fun d =>
      if 0 ≤ size then (true,w.setNode (w.node.resize i d size.toNat)) else (false,w)
  | .ftruncate _, _, w, .fault => some (false,w)
  | .mmap size, _, w, .ok => some (decide (0 < size),w)
  | .mmap _, _, w, .fault => some (false,w)
  | .lseek pos, i, w, .ok =>
    (w.node.desc i).map fun d =>
      if 0 ≤ pos then (true,w.setNode (w.node.setDesc i (some { d with pos := pos.toNat })))
      else (false,w)
  | .lseek _, _, w, .fault => some (false,w)
  | .write buf, i, w, .count n =>
    match w.node.desc i with
    | none => none
    | some d =>
      if 0 < n ∧ n ≤ buf.length then some (n,w.setNode (w.node.append i d (buf.take n)))
      else none
  | .write _, _, w, .fault => some (0,w)
  | .recvMapped pos once, i, w, .count n =>
    match w.node.desc i with
    | none => none
    | some d =>
      if 0 < n ∧ (n : ℤ) ≤ once ∧ n ≤ (w.node.conn i).stream.length then
        some (n,w.setNode
          ((w.node.patch d pos.toNat ((w.node.conn i).stream.take n)).consume i n))
      else none
  | .recvMapped _ _, _, w, .fault => some (0,w)
  | .close, i, w, .ok => some ((),w.setNode (w.node.setDesc i none))
  | .unlink path, _, w, .ok =>
    some ((w.node.store.names path).isSome,w.setNode
      { w.node with
        store := w.node.store.unlink path
        unlinked := w.node.unlinked ++ [path] })
  | .unlink _, _, w, .fault => some (false,w)
  | .recvAuth, i, w, .ok => some (some (w.node.conn i).auth,w)
  | .recvAuth, _, w, .fault => some (none,w)
  | .recvFile, i, w, .ok => some (some (w.node.conn i).hello,w)
  | .recvFile, _, w, .fault => some (none,w)
  | .recv once, i, w, .count n =>
    if 0 < n ∧ (n : ℤ) ≤ once ∧ n ≤ (w.node.conn i).stream.length then
      some ((w.node.conn i).stream.take n,w.setNode (w.node.consume i n))
    else none
  | .recv _, _, w, .fault => some ([],w)
  | .send p, i, w, .ok => some (true,w.setNode (w.node.deliver i p))
  | .send _, _, w, .fault => some (false,w)
  | .sendfile pos count, i, w, .count n =>
    match w.node.desc i with
    | none => none
    | some d =>
      if 0 ≤ pos ∧ 0 < n ∧ (n : ℤ) ≤ count ∧ pos.toNat+n ≤ (w.node.store.data d.inode).length then
        some (((w.node.store.data d.inode).drop pos.toNat).take n,w)
      else none
  | .sendfile _ _, _, w, .fault => some ([],w)
  | .sendMapped pos once, i, w, .count n =>
    match w.node.desc i with
    | none => none
    | some d =>
      if 0 ≤ pos ∧ 0 < n ∧ (n : ℤ) ≤ once ∧ pos.toNat+n ≤ (w.node.store.data d.inode).length then
        some (((w.node.store.data d.inode).drop pos.toNat).take n,w)
      else none
  | .sendMapped _ _, _, w, .fault => some ([],w)
  | .time, _, w, .value t => some (t,w)
  | .randBytes count, _, w, .bytes bs =>
    if bs.length = count ∧ ∀ b ∈ bs, b < 256 then
      some (some bs,{ w with drawn := w.drawn ++ [bs] })
    else none
  | .randBytes _, _, w, .fault => some (none,w)
  | .rand count, _, w, .bytes bs =>
    if bs.length = count ∧ ∀ b ∈ bs, b < 256 then some (bs,w) else none
  | .sha256 t, _, w, .ok => some (lib.sha256 t,w)
  | .jwtEncode p, _, w, .ok =>
    some (lib.encode p,{ w with minted := w.minted ++ (lib.encode p).toList })
  | .jwtEncode _, _, w, .fault => some (none,w)
  | .jwtDecode iss aud secretKey token, _, w, .value now =>
    some (lib.decode iss aud secretKey token now,w)
  | .jwtDecode _ _ _ _, _, w, .fault => some (none,w)
  | .ticketRegister now ticketId, _, w, .ok =>
    some ((w.node.tickets.register now ticketId).1,w.setNode
      { w.node with tickets := (w.node.tickets.register now ticketId).2 })
  | .ticketConsume now ticketId, _, w, .ok =>
    some ((w.node.tickets.consume now ticketId).1,w.setNode
      { w.node with tickets := (w.node.tickets.consume now ticketId).2 })
  | _, _, _, _ => none

def server (ι : Type) [DecidableEq ι] (lib : Library) : Machine Op Op.Res ι (World ι) Choice :=
  ⟨execute lib⟩

end Execution

end WindCloud
