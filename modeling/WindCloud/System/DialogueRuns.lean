import WindCloud.System.Dialogue

/-!
# Every reply in the layout its request awaits

Between two requests nothing is under way. Behind a request the server owes one
packet of its layout, and the client listens for nothing else.
-/

set_option autoImplicit false

namespace WindCloud
open CString Effect

namespace Dialogue

variable {lib : Library} {D D' : Dialogue}

def layoutsSent (D : Dialogue) : List PacketKind := D.sent.map Packet.kind

def layoutsDue (D : Dialogue) : List PacketKind := D.dispatched.map CmdType.replyKind

def Replied (D : Dialogue) : Prop := Mute D.server ∧ D.layoutsSent = D.layoutsDue

def Working (k : PacketKind) (D : Dialogue) : Prop :=
  Answers k D.server ∧ D.layoutsSent ++ [k] = D.layoutsDue

/-- Where the conversation stands. -/
inductive Stage (D : Dialogue) : Prop
  | lost (due : Option PacketKind) (broken : D.lost = true) (requests : D.requests = [])
      (replies : D.replies = []) (console : Client.ConsoleTalks due D.console)
      (server : D.Replied ∨ ∃ k, D.Working k)
  | quiet (requests : D.requests = []) (replies : D.replies = [])
      (console : Client.ConsoleTalks none D.console) (server : D.Replied)
  | asked (p : Packet) (requests : D.requests = [p]) (replies : D.replies = [])
      (console : Client.ConsoleTalks (some (getPacketCmdType p).replyKind) D.console)
      (server : D.Replied)
  | working (k : PacketKind) (requests : D.requests = []) (replies : D.replies = [])
      (console : Client.ConsoleTalks (some k) D.console) (server : D.Working k)
  | answered (p : Packet) (requests : D.requests = []) (replies : D.replies = [p])
      (console : Client.ConsoleTalks (some p.kind) D.console) (server : D.Replied)

section Server

theorem serving_counts (h : D.Replied ∨ ∃ k, D.Working k) :
    D.layoutsSent <+: D.layoutsDue ∧ D.dispatched.length ≤ D.sent.length+1 ∧
      ∀ ctx, D.server = .ret ctx → D.sent.length = D.dispatched.length := by
  rcases h with ⟨_,he⟩ | ⟨k,hk,he⟩
  · have hlen : D.sent.length = D.dispatched.length := by
      simpa [layoutsSent,layoutsDue] using congrArg List.length he
    exact ⟨he ▸ List.prefix_rfl,by omega,fun _ _ => hlen⟩
  · have hlen : D.sent.length+1 = D.dispatched.length := by
      simpa [layoutsSent,layoutsDue] using congrArg List.length he
    refine ⟨⟨[k],he⟩,by omega,fun ctx hctx => ?_⟩
    rw [hctx] at hk
    exact hk.elim

theorem afterServer_send (p : Packet) (c : Choice) :
    D.afterServer (.send p) c = { D.cutOff with sent := D.sent ++ [p] } ∨
      D.afterServer (.send p) c = { D.answer p with sent := D.sent ++ [p] } := by
  cases c <;> first | exact .inl rfl | exact .inr rfl

theorem afterServer_mute {o : Op} (ho : ¬o.isSend = true) (c : Choice) : D.afterServer o c = D := by
  cases o <;> first | rfl | exact absurd rfl ho

theorem serverStep_op {c : Choice} (h : D.serverStep lib c = some D') :
    ∃ o k r w, D.server = .op o k ∧ D' = { D.afterServer o c with server := k r, world := w } := by
  cases hs : D.server with
  | ret ctx => simp [serverStep,hs] at h
  | op o k =>
    simp only [serverStep,hs,Option.map_eq_some_iff] at h
    obtain ⟨⟨r,w⟩,_,rfl⟩ := h
    exact ⟨o,k,r,w,rfl,rfl⟩

theorem replied_step {c : Choice} (hr : D.Replied) (h : D.serverStep lib c = some D') :
    ∃ p w, D' = { D with server := p, world := w } ∧ D'.Replied := by
  obtain ⟨o,k,r,w,hs,rfl⟩ := serverStep_op h
  have hm := hr.1
  rw [hs] at hm
  rw [afterServer_mute hm.1]
  exact ⟨k r,w,rfl,hm.2 r,hr.2⟩

theorem working_step {kind : PacketKind} {c : Choice} (hw : D.Working kind)
    (h : D.serverStep lib c = some D') :
    (∃ p w, D' = { D with server := p, world := w } ∧ D'.Working kind) ∨
      ∃ p q w, q.kind = kind ∧ D'.Replied ∧
        (D' = { D.cutOff with sent := D.sent ++ [q], server := p, world := w } ∨
          D' = { D.answer q with sent := D.sent ++ [q], server := p, world := w }) := by
  obtain ⟨o,k,r,w,hs,rfl⟩ := serverStep_op h
  have ha := hw.1
  rw [hs] at ha
  rcases ha with ⟨ho,hgood,hmute⟩ | ⟨ho,hk⟩
  · cases o <;> cases ho
    rename_i q
    have hq : q.kind = kind := hgood
    refine .inr ⟨k r,q,w,hq,⟨hmute r,?_⟩,?_⟩
    · have hsent : (D.afterServer (.send q) c).layoutsSent = D.layoutsSent ++ [kind] := by
        rcases afterServer_send (D := D) q c with he | he <;> simp [he,layoutsSent,hq]
      have hdue : (D.afterServer (.send q) c).layoutsDue = D.layoutsDue := by
        rcases afterServer_send (D := D) q c with he | he <;>
          simp [he,layoutsDue,cutOff,answer,apply_ite]
      exact hsent.trans (hw.2.trans hdue.symm)
    · rcases afterServer_send (D := D) q c with he | he
      · exact .inl (by rw [he])
      · exact .inr (by rw [he])
  · rw [afterServer_mute ho]
    exact .inl ⟨k r,w,rfl,hk r,hw.2⟩

theorem serverStep_stage {c : Choice} (hD : D.Stage) (h : D.serverStep lib c = some D') :
    D'.Stage := by
  cases hD with
  | lost due broken requests replies console server =>
    rcases server with hr | ⟨kind,hw⟩
    · obtain ⟨p,w,rfl,hr'⟩ := replied_step hr h
      exact .lost due broken requests replies console (.inl hr')
    · rcases working_step hw h with ⟨p,w,rfl,hw'⟩ | ⟨p,q,w,_,hr',rfl | rfl⟩
      · exact .lost due broken requests replies console (.inr ⟨kind,hw'⟩)
      · exact .lost due rfl rfl rfl console (.inl hr')
      · simp only [answer,broken,if_true] at hr' ⊢
        exact .lost due rfl requests replies console (.inl hr')
  | quiet requests replies console server =>
    obtain ⟨p,w,rfl,hr'⟩ := replied_step server h
    exact .quiet requests replies console hr'
  | asked q requests replies console server =>
    obtain ⟨p,w,rfl,hr'⟩ := replied_step server h
    exact .asked q requests replies console hr'
  | answered q requests replies console server =>
    obtain ⟨p,w,rfl,hr'⟩ := replied_step server h
    exact .answered q requests replies console hr'
  | working kind requests replies console server =>
    rcases working_step server h with ⟨p,w,rfl,hw'⟩ | ⟨p,q,w,rfl,hr',rfl | rfl⟩
    · exact .working kind requests replies console hw'
    · exact .lost _ rfl rfl rfl console (.inl hr')
    · cases hl : D.lost with
      | true =>
        simp only [answer,hl,if_true] at hr' ⊢
        exact .lost _ rfl requests replies console (.inl hr')
      | false =>
        simp only [answer,hl,Bool.false_eq_true,if_false] at hr' ⊢
        exact .answered q requests (by simp [replies]) console hr'

/-- A session that is logged in, or a request that needs no login, is answered in
the layout the client awaits. -/
theorem replyLayout_attended {ctx : ClientContext} {cmdType : CmdType}
    (h : cmdType = .gets ∨ cmdType = .puts ∨ cmdType = .getsRange → ctx.userId ≠ -1) :
    replyLayout ctx cmdType = cmdType.replyKind := by
  unfold replyLayout
  split
  · rename_i hout
    cases cmdType with
    | gets | puts | getsRange => exact absurd hout.1 (h (by simp))
    | login => exact absurd rfl hout.2
    | _ => rfl
  · rfl

theorem dispatchStep_stage (hD : D.Stage) (hok : D.Attended .dispatch)
    (h : D.dispatchStep = some D') : D'.Stage := by
  unfold dispatchStep at h
  split at h
  · rename_i ctx cmdType data rest hs hq
    obtain rfl := Option.some.inj h
    cases hD with
    | lost due broken requests => simp [requests] at hq
    | quiet requests => simp [requests] at hq
    | working k requests => simp [requests] at hq
    | answered p requests => simp [requests] at hq
    | asked p requests replies console server =>
      obtain ⟨rfl,rfl⟩ : p = .command cmdType data ∧ rest = [] := by simpa [requests] using hq
      refine .working cmdType.replyKind rfl replies console ⟨?_,?_⟩
      · have ha := answers_dispatch ctx cmdType data
        rwa [replyLayout_attended (hok ctx cmdType data [] hs hq)] at ha
      · have he := server.2
        simp only [layoutsSent,layoutsDue] at he ⊢
        simp [he]
  · cases h

end Server

section ClientSide

/-- An operation of the client, by what it does to the connection. -/
inductive Moved (D : Dialogue) (o : Client.ConsoleOp) (r : Client.ConsoleOp.Res o) :
    Dialogue → Prop
  | cut (awaits : Client.ConsoleOp.awaits o r = none) : Moved D o r D.cutOff
  | posted (p : Packet) (hears : Client.ConsoleOp.hears o = none)
      (awaits : Client.ConsoleOp.awaits o r = some (getPacketCmdType p).replyKind) :
      Moved D o r (D.post p)
  | received (p : Packet) (rest : List Packet) (replies : D.replies = p::rest)
      (hears : Client.ConsoleOp.hears o = some p.kind)
      (awaits : Client.ConsoleOp.awaits o r = none) : Moved D o r { D with replies := rest }
  | aside (s : Client.State) (hears : Client.ConsoleOp.hears o = none)
      (awaits : Client.ConsoleOp.awaits o r = none) : Moved D o r { D with client := s }

theorem receive_moved {o : Client.ConsoleOp} {α : Type} {read : Packet → Option α}
    {a : Option α} {r : Client.ConsoleOp.Res o}
    (hread : ∀ p, (read p).isSome → Client.ConsoleOp.hears o = some p.kind)
    (ho : Client.ConsoleOp.awaits o r = none) (h : D.receive read = some (a,D')) :
    Moved D o r D' := by
  unfold receive at h
  split at h
  · cases h
  · rename_i p rest hp
    obtain ⟨b,hb,he⟩ := Option.map_eq_some_iff.mp h
    obtain ⟨rfl,rfl⟩ := Prod.mk.inj he
    exact .received p rest hp (hread p (by simp [hb])) ho

theorem clientExec_aside {o : Client.Op} (ho : o.aside = true) (c : Client.Choice) :
    clientExec (.inl o) D c =
      (Client.execute o D.client c).map fun rs => (rs.1,{ D with client := rs.2 }) := by
  cases o <;> first | rfl | cases ho

theorem clientExec_moved {o : Client.ConsoleOp} {c : Client.Choice} {r : Client.ConsoleOp.Res o}
    (h : clientExec o D c = some (r,D')) : Moved D o r D' := by
  rcases o with o | o
  · by_cases ho : o.aside = true
    · rw [clientExec_aside ho] at h
      obtain ⟨⟨_,s⟩,_,he⟩ := Option.map_eq_some_iff.mp h
      obtain ⟨rfl,rfl⟩ := Prod.mk.inj he
      exact .aside s (Client.hears_aside ho) (Client.awaits_aside _ ho)
    cases o <;> first | exact absurd rfl ho | skip
    case sendCommand p =>
      cases c <;> cases h
      · exact .posted p rfl rfl
      · exact .cut rfl
    case recvPlan =>
      cases c with
      | count n => cases h
      | fault =>
        cases h
        exact .cut rfl
      | ok => exact receive_moved (fun p hp => by cases p <;> first | rfl | cases hp) rfl h
    case recvTicket =>
      cases c with
      | count n => cases h
      | fault =>
        cases h
        exact .cut rfl
      | ok => exact receive_moved (fun p hp => by cases p <;> first | rfl | cases hp) rfl h
  · cases o with
    | recvAuth =>
      cases c with
      | count n => cases h
      | fault =>
        cases h
        exact .cut rfl
      | ok => exact receive_moved (fun p hp => by cases p <;> first | rfl | cases hp) rfl h
    | recvReply =>
      cases c with
      | count n => cases h
      | fault =>
        cases h
        exact .cut rfl
      | ok => exact receive_moved (fun p hp => by cases p <;> first | rfl | cases hp) rfl h

theorem stage_server (hD : D.Stage) : D.Replied ∨ ∃ k, D.Working k := by
  cases hD with
  | lost due broken requests replies console server => exact server
  | quiet requests replies console server => exact .inl server
  | asked p requests replies console server => exact .inl server
  | working k requests replies console server => exact .inr ⟨k,server⟩
  | answered p requests replies console server => exact .inl server

theorem stage_apart (hD : D.Stage) (s : Client.State) (w : World Unit) :
    Stage { D with client := s, world := w } := by
  cases hD with
  | lost due broken requests replies console server =>
    exact .lost due broken requests replies console server
  | quiet requests replies console server => exact .quiet requests replies console server
  | asked p requests replies console server => exact .asked p requests replies console server
  | working k requests replies console server => exact .working k requests replies console server
  | answered p requests replies console server =>
    exact .answered p requests replies console server

theorem stage_cut (hD : D.Stage) : D.cutOff.Stage := by
  have hserver := stage_server hD
  cases hD with
  | lost due broken requests replies console server => exact .lost due rfl rfl rfl console hserver
  | quiet requests replies console server => exact .lost _ rfl rfl rfl console hserver
  | asked p requests replies console server => exact .lost _ rfl rfl rfl console hserver
  | working k requests replies console server => exact .lost _ rfl rfl rfl console hserver
  | answered p requests replies console server => exact .lost _ rfl rfl rfl console hserver

theorem stage_talks (hD : D.Stage) : ∃ due, Client.ConsoleTalks due D.console := by
  cases hD with
  | lost due broken requests replies console server => exact ⟨due,console⟩
  | quiet requests replies console server => exact ⟨_,console⟩
  | asked p requests replies console server => exact ⟨_,console⟩
  | working k requests replies console server => exact ⟨_,console⟩
  | answered p requests replies console server => exact ⟨_,console⟩

theorem moved_stage {o : Client.ConsoleOp} {r : Client.ConsoleOp.Res o}
    {k : Client.ConsoleOp.Res o → Console Unit} (hD : D.Stage) (hc : D.console = .op o k)
    (h : Moved D o r D') : Stage { D' with console := k r } := by
  have hserver := stage_server hD
  obtain ⟨due,htalks⟩ := stage_talks hD
  rw [hc] at htalks
  have hrest := htalks.2 r
  cases h with
  | cut awaits =>
    rw [awaits] at hrest
    exact .lost none rfl rfl rfl hrest hserver
  | aside s hears awaits =>
    rw [awaits] at hrest
    cases hD with
    | lost due broken requests replies console server =>
      exact .lost none broken requests replies hrest server
    | quiet requests replies console server => exact .quiet requests replies hrest server
    | asked p requests replies console server => simp [hc,Program.Follows,hears] at console
    | working k requests replies console server => simp [hc,Program.Follows,hears] at console
    | answered p requests replies console server => simp [hc,Program.Follows,hears] at console
  | posted p hears awaits =>
    rw [awaits] at hrest
    cases hD with
    | lost due broken requests replies console server =>
      simp only [post,broken,if_true]
      exact .lost _ rfl requests replies hrest server
    | quiet requests replies console server =>
      cases hl : D.lost with
      | true =>
        simp only [post,hl,if_true]
        exact .lost _ rfl requests replies hrest hserver
      | false =>
        simp only [post,hl,Bool.false_eq_true,if_false]
        exact .asked p (by simp [requests]) replies hrest server
    | asked p requests replies console server => simp [hc,Program.Follows,hears] at console
    | working k requests replies console server => simp [hc,Program.Follows,hears] at console
    | answered p requests replies console server => simp [hc,Program.Follows,hears] at console
  | received p rest arrived hears awaits =>
    rw [awaits] at hrest
    cases hD with
    | lost due broken requests replies => simp [replies] at arrived
    | quiet requests replies => simp [replies] at arrived
    | asked p requests replies => simp [replies] at arrived
    | working k requests replies => simp [replies] at arrived
    | answered p requests replies console server =>
      obtain ⟨_,rfl⟩ : p = _ ∧ [] = rest := by simpa [replies] using arrived
      exact .quiet requests rfl hrest server

theorem clientStep_stage {c : Client.Choice} (hD : D.Stage) (h : D.clientStep c = some D') :
    D'.Stage := by
  unfold clientStep at h
  split at h
  · cases h
  · rename_i o k hc
    obtain ⟨⟨r,D₁⟩,hx,rfl⟩ := Option.map_eq_some_iff.mp h
    exact moved_stage hD hc (clientExec_moved hx)

end ClientSide

/-- Each step that meets the condition leads from stage to stage. -/
theorem step_stage {e : DialogueEvent} (hD : D.Stage) (hok : D.Attended e)
    (h : D.step lib e = some D') : D'.Stage := by
  cases e with
  | client c => exact clientStep_stage hD h
  | server c => exact serverStep_stage hD h
  | dispatch => exact dispatchStep_stage hD hok h
  | background s =>
    obtain rfl := Option.some.inj h
    exact stage_apart hD s D.world
  | others w =>
    obtain rfl := Option.some.inj h
    exact stage_apart hD D.client w
  | cut =>
    obtain rfl := Option.some.inj h
    exact stage_cut hD

theorem start_stage (clientFileDir : Text) (inputs : List Text) (s : Client.State)
    (w : World Unit) : (start clientFileDir inputs s w).Stage :=
  .quiet rfl rfl (Client.consoleTalks_main clientFileDir inputs) ⟨trivial,rfl⟩

theorem talks_hears {due : PacketKind} (h : Client.ConsoleTalks (some due) D.console) :
    D.Hears due := by
  cases hc : D.console with
  | ret a => simp [hc,Program.Follows] at h
  | op o k =>
    rw [hc] at h
    exact ⟨o,k,hc,h.1⟩

theorem stage_aligned (hD : D.Stage) : D.Aligned := by
  obtain ⟨hlayouts,hanswered,hsettled⟩ := serving_counts (stage_server hD)
  cases hD with
  | lost due broken requests replies =>
    exact ⟨hlayouts,hanswered,hsettled,by simp [requests],by simp [replies],
      by simp [requests,replies]⟩
  | quiet requests replies =>
    exact ⟨hlayouts,hanswered,hsettled,by simp [requests],by simp [replies],
      by simp [requests,replies]⟩
  | working k requests replies =>
    exact ⟨hlayouts,hanswered,hsettled,by simp [requests],by simp [replies],
      by simp [requests,replies]⟩
  | asked p requests replies console =>
    exact ⟨hlayouts,hanswered,hsettled,by simp [requests,talks_hears console],by simp [replies],
      by simp [requests,replies]⟩
  | answered p requests replies console =>
    exact ⟨hlayouts,hanswered,hsettled,by simp [requests],by simp [replies,talks_hears console],
      by simp [requests,replies]⟩

end Dialogue

/-- In every run that dispatches transfer requests to logged-in sessions only,
requests and replies stay in step. -/
theorem dialogue_aligned (lib : Library) (clientFileDir : Text) (inputs : List Text)
    (s : Client.State) (w : World Unit) (D : Dialogue)
    (run : Runs.Reached (Dialogue.step lib) Dialogue.Attended
      (Dialogue.start clientFileDir inputs s w) D) : D.Aligned :=
  Dialogue.stage_aligned (Runs.reached_invariant (Dialogue.start_stage clientFileDir inputs s w)
    (fun _ _ _ => Dialogue.step_stage) run)

namespace Relogin

def lib : Library where
  sha256 t := if t = "bs".toList then [1] else [2]
  encode _ := some "token".toList
  decode _ _ _ _ _ := none

def world : World Unit where
  db := { Db.empty with users := [⟨1,"a".toList,"01".toList,"s".toList⟩] }
  minted := []
  drawn := []
  node :=
    { storeDir := "../test/server_files".toList
      address := ("127.0.0.1".toList,"9090".toList)
      store := Inodes.empty []
      desc := fun _ => none
      conn := fun _ => ⟨[],⟨.puts,0,0,[],[]⟩,fun _ => [],[],[]⟩
      tickets := .zero
      unlinked := [] }

def files : Client.State where
  env := ⟨fun _ => ⟨0,0,[],[],[],[]⟩,fun _ => ⟨0,[],[]⟩,
    fun _ _ _ => ⟨⟨.puts,0,0,[],[]⟩,fun _ => []⟩,fun _ => []⟩
  files := (∅ : AList fun _ : Text => Content).insert "files/x".toList []
  dirs := []
  asked := .command .puts []
  address := ([],[])
  peer := ⟨⟨.puts,0,0,[],[]⟩,fun _ => []⟩
  stream := []
  output := none
  input := none
  printed := []

def start (inputs : List String) : Dialogue :=
  Dialogue.start "files".toList (inputs.map String.toList) files world

def login : List DialogueEvent :=
  [.client .ok,.dispatch,.server .ok,.server .ok,.server (.value 0),.server .ok,.server .ok,
    .client .ok,.client .ok]

def failedLogin : List DialogueEvent :=
  [.client .ok,.dispatch,.server .ok,.server .ok,.server .ok,.client .ok,.client .ok]

def puts : List DialogueEvent :=
  [.client .ok,.client .ok,.dispatch,.server .ok,.server (.value 0),
    .server (.bytes (List.replicate 16 7)),.server (.value 0),.server .ok,.server .ok,.server .ok,
    .client .ok,.client .ok,.client .ok,.client .ok]

def check (D : Dialogue) : DialogueEvent → Bool
  | .dispatch =>
    match D.server with
    | .ret ctx => decide (ctx.userId ≠ -1) ||
        D.requests.all fun p => decide ((getPacketCmdType p).replyKind = .auth)
    | .op _ _ => true
  | _ => true

theorem check_attended (D : Dialogue) (e : DialogueEvent) (h : check D e = true) : D.Attended e := by
  cases e <;> try trivial
  intro ctx cmdType data rest hs hq ht hout
  simp only [check,hs,hq,hout,ne_eq,not_true,decide_false,Bool.false_or,List.all_cons,
    Bool.and_eq_true,getPacketCmdType] at h
  rcases ht with rfl | rfl | rfl <;> cases h.1

def listening : Console Unit → Option PacketKind
  | .ret _ => none
  | .op o _ => Client.ConsoleOp.hears o

theorem hears_listening {D : Dialogue} {kind : PacketKind} (h : D.Hears kind) :
    listening D.console = some kind := by
  obtain ⟨o,k,hc,ho⟩ := h
  rw [hc]
  exact ho

end Relogin

open Relogin in
theorem upload_request_aligned : ∃ D : Dialogue,
    Runs.Reached (Dialogue.step lib) Dialogue.Attended (start ["login a/b","puts x"]) D ∧
      D.Aligned ∧ D.sent.map Packet.kind = [.auth,.ticket] := by
  have h : (Runs.replay (Dialogue.step lib) check (login ++ puts)
      (start ["login a/b","puts x"])).map (fun D => D.sent.map Packet.kind) =
      some [.auth,.ticket] := by
    decide +kernel
  obtain ⟨D,hD,hsent⟩ := Option.map_eq_some_iff.mp h
  have hrun := Runs.reached_mono check_attended (Runs.replay_reached hD)
  exact ⟨D,hrun,dialogue_aligned lib _ _ files world D hrun,hsent⟩

open Relogin in
/-- After a login that failed an upload request is answered by a text, while the
client listens for a ticket. -/
theorem relogin_not_aligned : ¬∀ (lib : Library) (clientFileDir : Text) (inputs : List Text)
    (s : Client.State) (w : World Unit) (D : Dialogue),
    Runs.Reached (Dialogue.step lib) (fun _ _ => True)
      (Dialogue.start clientFileDir inputs s w) D → D.Aligned := by
  intro hall
  have h : (Runs.replay (Dialogue.step lib) (fun _ _ => true)
      (login ++ failedLogin ++ [.client .ok,.client .ok,.dispatch,.server .ok])
      (start ["login a/b","login a/c","puts x"])).map
      (fun D => (D.replies.map Packet.kind,listening D.console)) =
      some ([.command],some .ticket) := by
    decide +kernel
  obtain ⟨D,hD,ho⟩ := Option.map_eq_some_iff.mp h
  obtain ⟨hreplies,hlisten⟩ := Prod.mk.inj ho
  have hrun := Runs.reached_mono (fun _ _ _ => trivial) (Runs.replay_reached hD)
  have haligned := hall lib _ _ files world D hrun
  cases hq : D.replies with
  | nil => simp [hq] at hreplies
  | cons p rest =>
    have hkind : p.kind = .command := by
      simp only [hq,List.map_cons,List.cons.injEq] at hreplies
      exact hreplies.1
    have hhears := hears_listening (haligned.heard p (by simp [hq]))
    rw [hlisten,hkind] at hhears
    cases hhears

end WindCloud
