import Mathlib.Data.List.AList
import WindCloud.Common.Protocol
import WindCloud.Lib.Buffer
import WindCloud.Lib.Program

/-!
# The client's operations

A client function is a program over single file operations in the client's
directory, single transfers on its connections, and the messages it prints.
The control server and the data sources are functions from what they are sent
to what they answer.
-/

set_option autoImplicit false

namespace WindCloud
open CString Effect

namespace Client

inductive RmdirResult where
  | removed
  | missing
  | failed
  deriving DecidableEq, Repr

inductive Op where
  | sendCommand (p : Packet)
  | recvPlan
  | recvTicket
  | mkdir (path : Text)
  | access (path : Text)
  | load (path : Text)
  | save (path text : Text)
  | stat (path : Text)
  | unlink (path : Text)
  | rmdir (path : Text)
  | createThread
  | connect (ip port : Text)
  | sendInit
  | sendAuth (ticket : Text)
  | recvFile
  | sendFile (p : FilePacket)
  | recvFull (once : ℤ)
  | closeSocket
  | openPart (path : Text)
  | openOutput (path : Text)
  | openInput (path : Text)
  | ftruncate (size : ℤ)
  | lseek (pos : ℤ)
  | write (buf : Content)
  | read (size : ℕ)
  | closeOutput
  | closeInput
  | fileSha256 (path : Text)
  | print (msg : Text)
  deriving DecidableEq, Repr

/-- What the caller reads of an operation's result. `openInput` also tells the
number of bytes there are, which only bounds the reading loop. A connection
attempt that fails ends the process. -/
abbrev Op.Res : Op → Type
  | .recvPlan => Option MultiGetsPlan
  | .recvTicket => Option TransferTicketReply
  | .load _ | .fileSha256 _ => Option Text
  | .stat _ => Option ℤ
  | .rmdir _ => RmdirResult
  | .recvFile => Option FilePacket
  | .recvFull _ | .read _ => Option Content
  | .openInput _ => Option ℕ
  | .write _ => ℕ
  | .sendCommand _ | .mkdir _ | .access _ | .save _ _ | .unlink _ | .createThread | .sendInit
  | .sendAuth _ | .sendFile _ | .openPart _ | .openOutput _ | .ftruncate _ | .lseek _ => Bool
  | .connect _ _ | .closeSocket | .closeOutput | .closeInput | .print _ => Unit

inductive Choice where
  | ok
  | fault
  | count (n : ℕ)
  deriving DecidableEq, Repr

/-- A data source behind a transfer connection: the file packet it announces,
and the bytes it sends after the client's. -/
structure Peer where
  hello : FilePacket
  answer : FilePacket → Content

/-- The answers of the control server, the source reached with a ticket, and
the hash of a file. -/
structure Environment where
  plan : Packet → MultiGetsPlan
  ticket : Packet → TransferTicketReply
  source : (ip port ticket : Text) → Peer
  sha256 : Content → Text

structure Handle where
  path : Text
  pos : ℕ
  deriving DecidableEq, Repr

structure State where
  env : Environment
  files : AList fun _ : Text => Content
  dirs : List Text
  asked : Packet
  address : Text × Text
  peer : Peer
  stream : Content
  output : Option Handle
  input : Option Handle
  printed : List Text

namespace State

def content (s : State) (path : Text) : Content := (s.files.lookup path).getD []

def put (s : State) (path : Text) (f : Content) : State :=
  { s with files := s.files.insert path f }

def openAt (s : State) (path : Text) (f : Content) : State :=
  { s.put path f with output := some ⟨path,0⟩ }

def emptyDir (s : State) (dir : Text) : Bool :=
  (s.files.keys ++ s.dirs).all fun p => !(dir ++ ['/']).isPrefixOf p

def emit (s : State) (h : Handle) (bs : Content) : State :=
  { s.put h.path (Buffer.splice '\x00' (s.content h.path) h.pos bs) with
    output := some ⟨h.path,h.pos+bs.length⟩ }

/-- At most `size` bytes from the handle on. -/
def behind (s : State) (h : Handle) (size : ℕ) : Content :=
  ((s.content h.path).drop h.pos).take size

end State

def execute : (o : Op) → State → Choice → Option (o.Res × State)
  | .sendCommand p, s, .ok => some (true,{ s with asked := p })
  | .sendCommand _, s, .fault => some (false,s)
  | .recvPlan, s, .ok => some (some (s.env.plan s.asked),s)
  | .recvPlan, s, .fault => some (none,s)
  | .recvTicket, s, .ok => some (some (s.env.ticket s.asked),s)
  | .recvTicket, s, .fault => some (none,s)
  | .mkdir path, s, .ok => some (true,{ s with dirs := s.dirs.insert path })
  | .mkdir _, s, .fault => some (false,s)
  | .access path, s, .ok => some ((s.files.lookup path).isSome,s)
  | .access _, s, .fault => some (false,s)
  | .load path, s, .ok => some (s.files.lookup path,s)
  | .load _, s, .fault => some (none,s)
  | .save path text, s, .ok => some (true,s.put path text)
  | .save _ _, s, .fault => some (false,s)
  | .stat path, s, .ok => some ((s.files.lookup path).map fun f => (f.length : ℤ),s)
  | .stat _, s, .fault => some (none,s)
  | .unlink path, s, .ok =>
    some ((s.files.lookup path).isSome,{ s with files := s.files.erase path })
  | .unlink _, s, .fault => some (false,s)
  | .rmdir path, s, .ok =>
    if s.dirs.contains path then
      if s.emptyDir path then some (.removed,{ s with dirs := s.dirs.filter (· ≠ path) })
      else some (.failed,s)
    else some (.missing,s)
  | .rmdir _, s, .fault => some (.failed,s)
  | .createThread, s, .ok => some (true,s)
  | .createThread, s, .fault => some (false,s)
  | .connect ip port, s, .ok => some ((),{ s with address := (ip,port) })
  | .sendInit, s, .ok => some (true,s)
  | .sendInit, s, .fault => some (false,s)
  | .sendAuth ticket, s, .ok =>
    some (true,{ s with peer := s.env.source s.address.1 s.address.2 ticket, stream := [] })
  | .sendAuth _, s, .fault => some (false,s)
  | .recvFile, s, .ok => some (some s.peer.hello,s)
  | .recvFile, s, .fault => some (none,s)
  | .sendFile p, s, .ok => some (true,{ s with stream := s.peer.answer p })
  | .sendFile _, s, .fault => some (false,s)
  | .recvFull once, s, .ok =>
    if once ≤ s.stream.length then
      some (some (s.stream.take once.toNat),{ s with stream := s.stream.drop once.toNat })
    else some (none,s)
  | .recvFull _, s, .fault => some (none,s)
  | .closeSocket, s, .ok => some ((),s)
  | .openPart path, s, .ok => some (true,s.openAt path (s.content path))
  | .openPart _, s, .fault => some (false,s)
  | .openOutput path, s, .ok => some (true,s.openAt path [])
  | .openOutput _, s, .fault => some (false,s)
  | .openInput path, s, .ok =>
    match s.files.lookup path with
    | none => some (none,s)
    | some f => some (some f.length,{ s with input := some ⟨path,0⟩ })
  | .openInput _, s, .fault => some (none,s)
  | .ftruncate size, s, .ok =>
    match s.output with
    | none => some (false,s)
    | some h =>
      if 0 ≤ size then
        some (true,s.put h.path (Buffer.resize '\x00' (s.content h.path) size.toNat))
      else some (false,s)
  | .ftruncate _, s, .fault => some (false,s)
  | .lseek pos, s, .ok =>
    match s.output with
    | none => some (false,s)
    | some h =>
      if 0 ≤ pos then some (true,{ s with output := some ⟨h.path,pos.toNat⟩ })
      else some (false,s)
  | .lseek _, s, .fault => some (false,s)
  | .write buf, s, .ok =>
    match s.output with
    | none => some (0,s)
    | some h => some (buf.length,s.emit h buf)
  | .write buf, s, .count n =>
    match s.output with
    | none => none
    | some h => if 0 < n ∧ n < buf.length then some (n,s.emit h (buf.take n)) else none
  | .write _, s, .fault => some (0,s)
  | .read size, s, .ok =>
    match s.input with
    | none => some (none,s)
    | some h =>
      some (some (s.behind h size),
        { s with input := some ⟨h.path,h.pos+(s.behind h size).length⟩ })
  | .read size, s, .count n =>
    match s.input with
    | none => none
    | some h =>
      if 0 < n ∧ n < (s.behind h size).length then
        some (some (s.behind h n),{ s with input := some ⟨h.path,h.pos+n⟩ })
      else none
  | .read _, s, .fault => some (none,s)
  | .closeOutput, s, .ok => some ((),{ s with output := none })
  | .closeInput, s, .ok => some ((),{ s with input := none })
  | .fileSha256 path, s, .ok => some ((s.files.lookup path).map s.env.sha256,s)
  | .fileSha256 _, s, .fault => some (none,s)
  | .print msg, s, .ok => some ((),{ s with printed := s.printed ++ [msg] })
  | _, _, _ => none

/-- One client process; its threads are run one after the other. -/
def client : Machine Op Op.Res Unit State Choice := ⟨fun o _ s c => execute o s c⟩

def AnyOutcome (_ : Op) (_ : State) (_ : Choice) : Prop := True

def NoFailure (_ : Op) (_ : State) (c : Choice) : Prop := c ≠ .fault

end Client

abbrev Client (α : Type) := Program Client.Op Client.Op.Res α

end WindCloud
