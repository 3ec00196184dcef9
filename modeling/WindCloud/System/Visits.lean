import WindCloud.Client.Requests
import WindCloud.Lib.Runs
import WindCloud.Server.SessionMoves

/-!
# One client's commands on one connection

`process_command` for one input after the other, with the server's session at
the other end. A command that has been sent is dispatched at once, and its
reply waits to be received; packets carry no tag, so that a reply of another
layout is never received.
-/

set_option autoImplicit false

namespace WindCloud
open CString Effect

/-- The connection as the client's thread meets it: the session and the
database behind it, and the replies that have arrived. -/
structure ControlLine where
  session : ClientContext
  world : World Unit
  client : Client.State
  replies : List Packet
  lost : Bool

/-- Outcomes of an operation of the client and of the command it sends. -/
abbrev Turn := Client.Choice × List Choice

/-- The packets that reach the client. -/
def arrived : (o : Op) → o.Res → World Unit → List Packet → List Packet
  | .send p, sent, _, ps => if sent = true then ps ++ [p] else ps
  | _, _, _, ps => ps

def answering (lib : Library) : Machine Op Op.Res Unit (World Unit × (Unit → List Packet)) Choice :=
  (server Unit lib).recorded arrived

namespace ControlLine

def cut (L : ControlLine) : ControlLine := { L with replies := [], lost := true }

/-- `handle_control_event` for the packet that was sent. -/
def dispatch (lib : Library) (L : ControlLine) (cs : List Choice) : Packet → Option ControlLine
  | .command cmdType data =>
    ((answering lib).run () (dispatchControlCommand L.session cmdType data)
      (L.world,fun _ => []) cs).map fun r =>
        { L with session := r.1, world := r.2.1, replies := L.replies ++ r.2.2 () }
  | _ => none

def receive {α : Type} (L : ControlLine) (read : Packet → Option α) : Option (Option α × ControlLine) :=
  match L.replies with
  | [] => none
  | p::rest => (read p).map fun a => (some a,{ L with replies := rest })

def exec (lib : Library) : (o : Client.ConsoleOp) → ControlLine → Turn →
    Option (Client.ConsoleOp.Res o × ControlLine)
  | .inl (.sendCommand p), L, (.ok,cs) =>
    if L.lost then some (true,L) else (L.dispatch lib cs p).map fun L' => (true,L')
  | .inl (.sendCommand _), L, (.fault,_) => some (false,L.cut)
  | .inl .recvPlan, L, (.ok,_) => L.receive fun | .plan p => some p | _ => none
  | .inl .recvPlan, L, (.fault,_) => some (none,L.cut)
  | .inl .recvTicket, L, (.ok,_) => L.receive fun | .ticket p => some p | _ => none
  | .inl .recvTicket, L, (.fault,_) => some (none,L.cut)
  | .inr .recvAuth, L, (.ok,_) => L.receive fun | .auth p => some p | _ => none
  | .inr .recvAuth, L, (.fault,_) => some (none,L.cut)
  | .inr .recvReply, L, (.ok,_) => L.receive fun | .command _ data => some data | _ => none
  | .inr .recvReply, L, (.fault,_) => some (none,L.cut)
  | .inl o, L, c =>
    if o.aside then (Client.execute o L.client c.1).map fun rs => (rs.1,{ L with client := rs.2 })
    else none
  | _, _, _ => none

end ControlLine

def connected (lib : Library) : Machine Client.ConsoleOp Client.ConsoleOp.Res Unit ControlLine Turn :=
  ⟨fun o _ L c => L.exec lib o c⟩

/-- The client's state and the connection between two commands. -/
structure Visit where
  state : Client.ClientState
  line : ControlLine

/-- A command with the outcomes of its operations; between two commands the
client's other threads and all other clients do what they like. -/
inductive VisitEvent where
  | command (input : Text) (turns : List Turn)
  | background (s : Client.State)
  | others (w : World Unit)

namespace Visit

def step (lib : Library) (clientFileDir : Text) (V : Visit) : VisitEvent → Option Visit
  | .command input turns =>
    ((connected lib).run () (Client.processCommand clientFileDir V.state input) V.line turns).map
      fun r => ⟨r.1.1,r.2⟩
  | .background s => some { V with line := { V.line with client := s } }
  | .others w => some { V with line := { V.line with world := w } }

/-- The client before its first login, and the session `control_conn_init` sets up. -/
def start (s : Client.State) (w : World Unit) : Visit :=
  ⟨⟨false,0,[],"/".toList⟩,⟨⟨-1,"/".toList,0⟩,w,s,[],false⟩⟩

/-- While the connection stands and the session is logged in, both ends have
one path. -/
def OnePath (V : Visit) : Prop :=
  V.line.lost = false → V.line.session.userId ≠ -1 →
    V.state.currentPath = V.line.session.currentPath

/-- A login that the database admits is made by a session that is logged out or
stands in the root directory. -/
def Homeward (lib : Library) (V : Visit) : VisitEvent → Prop
  | .command input _ =>
    getCmdType (Client.parseInput input).cmd = .login →
    V.line.session.userId ≠ -1 → V.line.session.currentPath ≠ "/".toList →
      ¬Admits lib V.line.world.db (Client.parseInput input).arg
  | _ => True

end Visit

end WindCloud
