import WindCloud.Client.Requests
import WindCloud.Lib.Runs
import WindCloud.Server.Replies

/-!
# One control connection

The client's main thread and `dispatch_control_command` at the two ends of one
connection. Packets carry no tag, so that a reception reads the next bytes in
the layout it expects. Background threads of the client and all other threads of
the server may change what is theirs at any time, and the connection may break
at any time.
-/

set_option autoImplicit false

namespace WindCloud
open CString Effect

/-- Both ends with what is under way between them. `dispatched` lists the
commands the server took, and `sent` the packets it sent. -/
structure Dialogue where
  console : Console Unit
  server : Server ClientContext
  client : Client.State
  world : World Unit
  requests : List Packet
  replies : List Packet
  lost : Bool
  dispatched : List CmdType
  sent : List Packet

inductive DialogueEvent where
  | client (c : Client.Choice)
  | server (c : Choice)
  | dispatch
  | background (s : Client.State)
  | others (w : World Unit)
  | cut

namespace Dialogue

/-- The connection breaks with what is under way. -/
def cutOff (D : Dialogue) : Dialogue := { D with requests := [], replies := [], lost := true }

/-- A packet the client has sent; over a broken connection it does not arrive. -/
def post (D : Dialogue) (p : Packet) : Dialogue :=
  if D.lost then D else { D with requests := D.requests ++ [p] }

def answer (D : Dialogue) (p : Packet) : Dialogue :=
  if D.lost then D else { D with replies := D.replies ++ [p] }

/-- The next packet in the layout of `read`. -/
def receive {α : Type} (D : Dialogue) (read : Packet → Option α) : Option (Option α × Dialogue) :=
  match D.replies with
  | [] => none
  | p::rest => (read p).map fun a => (some a,{ D with replies := rest })

/-- An operation of the client's main thread. -/
def clientExec : (o : Client.ConsoleOp) → Dialogue → Client.Choice →
    Option (Client.ConsoleOp.Res o × Dialogue)
  | .inl (.sendCommand p), D, .ok => some (true,D.post p)
  | .inl (.sendCommand _), D, .fault => some (false,D.cutOff)
  | .inl .recvPlan, D, .ok => D.receive fun | .plan p => some p | _ => none
  | .inl .recvPlan, D, .fault => some (none,D.cutOff)
  | .inl .recvTicket, D, .ok => D.receive fun | .ticket p => some p | _ => none
  | .inl .recvTicket, D, .fault => some (none,D.cutOff)
  | .inr .recvAuth, D, .ok => D.receive fun | .auth p => some p | _ => none
  | .inr .recvAuth, D, .fault => some (none,D.cutOff)
  | .inr .recvReply, D, .ok => D.receive fun | .command _ data => some data | _ => none
  | .inr .recvReply, D, .fault => some (none,D.cutOff)
  | .inl o, D, c =>
    if o.aside then (Client.execute o D.client c).map fun rs => (rs.1,{ D with client := rs.2 })
    else none
  | _, _, _ => none

/-- What becomes of a packet the server sends. -/
def afterServer (D : Dialogue) : Op → Choice → Dialogue
  | .send p, .fault => { D.cutOff with sent := D.sent ++ [p] }
  | .send p, _ => { D.answer p with sent := D.sent ++ [p] }
  | _, _ => D

def clientStep (D : Dialogue) (c : Client.Choice) : Option Dialogue :=
  match D.console with
  | .ret _ => none
  | .op o k => (clientExec o D c).map fun rs => { rs.2 with console := k rs.1 }

def serverStep (lib : Library) (D : Dialogue) (c : Choice) : Option Dialogue :=
  match D.server with
  | .ret _ => none
  | .op o k => (execute lib o () D.world c).map fun rs =>
    { D.afterServer o c with server := k rs.1, world := rs.2 }

/-- `handle_control_event` for the next command packet. -/
def dispatchStep (D : Dialogue) : Option Dialogue :=
  match D.server, D.requests with
  | .ret ctx, .command cmdType data::rest =>
    some { D with
      server := dispatchControlCommand ctx cmdType data
      requests := rest
      dispatched := D.dispatched ++ [cmdType] }
  | _, _ => none

def step (lib : Library) (D : Dialogue) : DialogueEvent → Option Dialogue
  | .client c => D.clientStep c
  | .server c => D.serverStep lib c
  | .dispatch => D.dispatchStep
  | .background s => some { D with client := s }
  | .others w => some { D with world := w }
  | .cut => some D.cutOff

/-- The client at its menu, and the session `control_conn_init` sets up. -/
def start (clientFileDir : Text) (inputs : List Text) (s : Client.State) (w : World Unit) :
    Dialogue where
  console := Client.mainThread clientFileDir inputs
  server := .ret ⟨-1,"/".toList,0⟩
  client := s
  world := w
  requests := []
  replies := []
  lost := false
  dispatched := []
  sent := []

def Hears (D : Dialogue) (kind : PacketKind) : Prop :=
  ∃ o k, D.console = .op o k ∧ Client.ConsoleOp.hears o = some kind

/-- Every packet sent has the layout that belongs to the command it answers,
each command is answered once, and the client is listening for just this layout
while a request or its reply is under way; no other is under way then. -/
structure Aligned (D : Dialogue) : Prop where
  layouts : D.sent.map Packet.kind <+: D.dispatched.map CmdType.replyKind
  answered : D.dispatched.length ≤ D.sent.length+1
  settled : ∀ ctx, D.server = .ret ctx → D.sent.length = D.dispatched.length
  asked : ∀ p ∈ D.requests, D.Hears (getPacketCmdType p).replyKind
  heard : ∀ p ∈ D.replies, D.Hears p.kind
  single : D.requests.length+D.replies.length ≤ 1

/-- A command is dispatched for a session that has not lost its login, unless
a text or a login result answers it. -/
def Attended (D : Dialogue) : DialogueEvent → Prop
  | .dispatch => ∀ ctx cmdType data rest, D.server = .ret ctx →
      D.requests = .command cmdType data::rest →
      cmdType = .gets ∨ cmdType = .puts ∨ cmdType = .getsRange → ctx.userId ≠ -1
  | _ => True

end Dialogue

end WindCloud
