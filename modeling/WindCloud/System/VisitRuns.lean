import WindCloud.System.DialogueRuns
import WindCloud.System.Visits

/-!
# One path at both ends

The client never receives the path. It follows `cd` by itself whenever the
reply speaks of success, and begins at the root with each login; the server
begins at the root only with a login of a session that is logged out.
-/

set_option autoImplicit false

namespace WindCloud
open CString Effect

namespace Client

/-- Operations that do not ask the server to move the session. -/
def Op.stays : Op → Bool
  | .sendCommand p => getPacketCmdType p ≠ .login && getPacketCmdType p ≠ .cd
  | _ => true

abbrev Stays {α : Type} (p : Client α) : Prop := p.Uses fun o => o.stays = true

section Requests

variable {α β : Type}

theorem stays_bind {p : Client α} {f : α → Client β} (hp : Stays p) (hf : ∀ a, Stays (f a)) :
    Stays (p >>= f) :=
  Program.uses_bind p f hp hf

theorem stays_perform {o : Op} (ho : o.stays = true) : Stays (perform o) := ⟨ho,fun _ => trivial⟩

theorem stays_print (msg : String) : Stays (print msg) := stays_perform rfl

theorem stays_aside {p : Client α} (hp : Aside p) : Stays p :=
  Program.uses_mono (fun o ho => by cases o <;> first | rfl | cases ho) hp

theorem stays_sendCommand {type : CmdType} {data : Text} {f : Bool → Client α}
    (ht : type ≠ .login ∧ type ≠ .cd) (hf : ∀ sent, Stays (f sent)) :
    Stays (sendCommand type data >>= f) :=
  ⟨by simp [Op.stays,getPacketCmdType,initCommandPacket,ht],hf⟩

theorem stays_plan (arg : Text) : Stays (requestMultiGetsPlan arg) := by
  refine stays_sendCommand (by decide) fun sent => ?_
  cases sent with
  | false => exact stays_bind (stays_print _) fun _ => trivial
  | true =>
    refine stays_bind (stays_perform rfl) fun r => ?_
    rcases (r : Option MultiGetsPlan) with _ | plan
    · exact stays_bind (stays_print _) fun _ => trivial
    · refine stays_bind (stays_perform rfl) fun _ => ?_
      split <;> trivial

theorem stays_rangeTicket (fileName : Text) (p : MultipartPartInfo) :
    Stays (requestGetsRangeTicket fileName p) := by
  unfold requestGetsRangeTicket
  split
  · trivial
  refine stays_sendCommand (by decide) fun sent => ?_
  cases sent with
  | false => exact stays_bind (stays_print _) fun _ => trivial
  | true =>
    refine stays_bind (stays_perform rfl) fun r => ?_
    rcases (r : Option TransferTicketReply) with _ | reply
    · exact stays_bind (stays_print _) fun _ => trivial
    · dsimp only
      split
      · trivial
      · exact stays_bind (stays_perform rfl) fun _ => trivial

theorem stays_tickets (m : MultipartTaskMeta) (is : List PartIndex) : Stays (requestTickets m is) := by
  induction is with
  | nil => trivial
  | cons i is ih =>
    unfold requestTickets
    split
    · exact ih
    refine stays_bind (stays_rangeTicket _ _) fun r => ?_
    cases r with
    | none => trivial
    | some ticket =>
      refine stays_bind ih fun r => ?_
      cases r <;> trivial

theorem stays_download (clientFileDir arg : Text) : Stays (requestDownload clientFileDir arg) := by
  unfold requestDownload
  split
  · exact stays_bind (stays_print _) fun _ => trivial
  refine stays_bind (stays_plan arg) fun r => ?_
  cases r with
  | none => trivial
  | some plan =>
    refine stays_bind (stays_aside (aside_prepareDownload _ _)) fun r => ?_
    cases r with
    | none => trivial
    | some m =>
      refine stays_bind (stays_tickets m _) fun r => ?_
      cases r with
      | none => exact stays_bind (stays_print _) fun _ => trivial
      | some tasks =>
        refine stays_bind (stays_perform rfl) fun r => ?_
        cases (r : Bool) <;> exact stays_bind (stays_print _) fun _ => trivial

theorem stays_transferTicket (arg : Text) (size : ℕ) :
    Stays (requestTransferTicket .puts arg size) := by
  refine stays_sendCommand (by decide) fun sent => ?_
  cases sent with
  | false => exact stays_bind (stays_print _) fun _ => trivial
  | true =>
    refine stays_bind (stays_perform rfl) fun r => ?_
    rcases (r : Option TransferTicketReply) with _ | reply
    · exact stays_bind (stays_print _) fun _ => trivial
    · refine stays_bind (stays_perform rfl) fun _ => ?_
      split <;> trivial

theorem stays_puts (clientFileDir arg : Text) : Stays (handlePutsCommand clientFileDir arg) := by
  unfold handlePutsCommand
  split
  · exact stays_bind (stays_print _) fun _ => trivial
  refine stays_bind (stays_perform rfl) fun r => ?_
  cases (r : Bool) with
  | false => exact stays_bind (stays_print _) fun _ => trivial
  | true =>
    refine stays_bind (stays_transferTicket arg _) fun r => ?_
    cases r with
    | none => trivial
    | some ticket =>
      refine stays_bind (stays_perform rfl) fun r => ?_
      cases (r : Bool) <;> exact stays_bind (stays_print _) fun _ => trivial

end Requests

theorem followed_cd {state : ClientState} {arg : Text} (harg : arg.length < cmdDataLen)
    (hdot : arg ≠ ".".toList) (hshort : (followed state.currentPath arg).length < 256) :
    (updateClientPathAfterCd state arg).currentPath = followed state.currentPath arg := by
  unfold updateClientPathAfterCd
  rw [if_neg hdot]
  by_cases hup : arg = "..".toList
  · simp only [followed,if_pos hup] at hshort ⊢
    by_cases hroot : state.currentPath = "/".toList
    · rw [if_pos ⟨hup,hroot⟩,parentPath,if_pos hroot,hroot]
    · have hnext : nextPath state.currentPath arg = parentPath state.currentPath := by
        unfold nextPath parentPath
        rw [if_pos hup]
        cases splitLast '/' state.currentPath with
        | none => simp only [if_neg hroot]
        | some ends => simp only [if_neg hroot]
      rw [if_neg (fun h => hroot h.2),hnext,if_neg (by omega)]
  · simp only [followed,if_neg hup] at hshort ⊢
    have hnext : nextPath state.currentPath arg = absPath state.currentPath arg := by
      unfold nextPath absPath at *
      rw [if_neg hup]
      split
      · exact List.take_of_length_le (by unfold cmdDataLen at harg; omega)
      · rename_i hrel
        rw [if_neg hrel] at hshort
        split
        · rename_i hroot
          rw [if_pos hroot] at hshort
          exact List.take_of_length_le (by omega)
        · rename_i hroot
          rw [if_neg hroot] at hshort
          exact List.take_of_length_le (by omega)
    rw [if_neg (fun h => hup h.1),hnext,if_neg (by omega)]

theorem parsed_arg (input : Text) : (parseInput input).arg.length < cmdDataLen := by
  have hlen : (parseInput input).arg.length ≤ 199 := List.length_take_le _ _
  unfold cmdDataLen
  omega

end Client

section Server

variable {lib : Library} {L L' : ControlLine} {cs : List Choice} {cmdType : CmdType} {data : Text}

theorem dispatch_emits (h : L.dispatch lib cs (.command cmdType data) = some L') :
    ∃ ps qs ctx w, Emits (dispatchControlCommand L.session cmdType data) ps ctx ∧
      qs.Sublist ps ∧ L' = { L with session := ctx, world := w, replies := L.replies ++ qs } := by
  obtain ⟨⟨ctx,w,arrivals⟩,hrun,rfl⟩ := Option.map_eq_some_iff.mp h
  have hnote : ∀ (o : Op) (r : o.Res) (w : World Unit) (ps : List Packet),
      ∃ qs, qs.Sublist o.tells.toList ∧ arrived o r w ps = ps ++ qs := by
    intro o r w ps
    cases o
    case send p =>
      cases (r : Bool) with
      | false => exact ⟨[],List.nil_sublist _,(List.append_nil _).symm⟩
      | true => exact ⟨[p],List.Sublist.refl _,rfl⟩
    all_goals exact ⟨[],List.nil_sublist _,(List.append_nil _).symm⟩
  obtain ⟨ps,qs,hemits,hsub,harrived⟩ := Machine.recorded_emits hnote _ hrun
  refine ⟨ps,qs,ctx,w,hemits,hsub,?_⟩
  have hq : arrivals () = qs := harrived
  rw [← hq]

theorem dispatch_admitted (h : L.dispatch lib cs (.command .login data) = some L') :
    ∃ userId, L'.session = loginContext L.session userId ∧
      (userId ≠ -1 → Admits lib L.world.db data) := by
  obtain ⟨⟨ctx,w,arrivals⟩,hrun,rfl⟩ := Option.map_eq_some_iff.mp h
  have hexec := Machine.run_exec (Machine.recorded_run _ hrun)
  have hdispatch : dispatchControlCommand L.session .login data =
      handleLogin data >>= fun userId => pure (loginContext L.session userId) := by
    unfold dispatchControlCommand
    rw [if_neg (by simp)]
  rw [hdispatch] at hexec
  refine Machine.exec_wlp (Q := fun ctx _ => ∃ userId, ctx = loginContext L.session userId ∧
    (userId ≠ -1 → Admits lib L.world.db data)) hexec ?_
  refine (Machine.wlp_bind _ _ _ _).mpr ?_
  exact Machine.wlp_mono _ (fun userId _ hid => ⟨userId,rfl,hid⟩) (login_admitted data L.world)

theorem single_arrival {ps qs rest : List Packet} {q : Packet} (hsub : qs.Sublist ps)
    (hps : ps.length ≤ 1) (hq : qs = q::rest) : ps = [q] ∧ rest = [] := by
  subst hq
  have hle := hsub.length_le
  have hlen : (q::rest).length = 1 := by
    simp only [List.length_cons] at hle ⊢
    omega
  have hrest : rest = [] := by simpa using hlen
  subst hrest
  exact ⟨(hsub.eq_of_length_le (by simpa using hps)).symm,rfl⟩

end Server

section Rules

variable {lib : Library} {L : ControlLine} {α β : Type} {Q : β → ControlLine → Prop}

/-- What holds behind every run of a program of the client. -/
abbrev Ensures (lib : Library) (p : Console α) (Q : α → ControlLine → Prop) (L : ControlLine) : Prop :=
  (connected lib).wlp (fun _ _ _ => True) () p Q L

theorem ensures_bind {p : Console α} {f : α → Console β}
    (h : Ensures lib p (fun a => Ensures lib (f a) Q) L) : Ensures lib (p >>= f) Q L :=
  (Machine.wlp_bind p f Q L).mpr h

theorem exec_aside {o : Client.Op} (ho : o.aside = true) (c : Turn) :
    ControlLine.exec lib (.inl o) L c =
      (Client.execute o L.client c.1).map fun rs => (rs.1,{ L with client := rs.2 }) := by
  cases o <;> first | rfl | cases ho

theorem ensures_sayText {msg : Text} {f : Unit → Console β}
    (h : ∀ s, Ensures lib (f ()) Q { L with client := s }) : Ensures lib (Client.sayText msg >>= f) Q L := by
  intro c r L' _ hx
  have hx' : ControlLine.exec lib (.inl (.print msg)) L c = some (r,L') := hx
  rw [exec_aside rfl] at hx'
  obtain ⟨⟨r₁,s⟩,_,he⟩ := Option.map_eq_some_iff.mp hx'
  obtain ⟨rfl,rfl⟩ := Prod.mk.inj he
  exact h s

theorem ensures_say {msg : String} {f : Unit → Console β}
    (h : ∀ s, Ensures lib (f ()) Q { L with client := s }) : Ensures lib (Client.say msg >>= f) Q L :=
  ensures_sayText h

theorem ensures_send {type : CmdType} {arg : Text} {f : Bool → Console β} (harg : arg.length < cmdDataLen)
    (hunsent : Ensures lib (f false) Q L.cut) (hlost : L.lost = true → Ensures lib (f true) Q L)
    (hsent : ∀ cs L', L.dispatch lib cs (.command type arg) = some L' → Ensures lib (f true) Q L') :
    Ensures lib (Client.ofClient (Client.sendCommand type arg) >>= f) Q L := by
  have hpacket : initCommandPacket type arg = .command type arg := by
    rw [initCommandPacket,List.take_of_length_le (by omega)]
  rintro ⟨c,cs⟩ r L' _ hx
  have hx' : ControlLine.exec lib (.inl (.sendCommand (.command type arg))) L (c,cs) =
      some (r,L') := hpacket ▸ hx
  cases c with
  | count n => cases hx'
  | fault =>
    obtain ⟨rfl,rfl⟩ := Prod.mk.inj (Option.some.inj hx')
    exact hunsent
  | ok =>
    simp only [ControlLine.exec] at hx'
    split at hx'
    · rename_i hl
      obtain ⟨rfl,rfl⟩ := Prod.mk.inj (Option.some.inj hx')
      exact hlost hl
    · obtain ⟨L₁,hd,he⟩ := Option.map_eq_some_iff.mp hx'
      obtain ⟨rfl,rfl⟩ := Prod.mk.inj he
      exact hsent cs _ hd

theorem receive_some {read : Packet → Option α} {r : Option α} {L' : ControlLine}
    (h : L.receive read = some (r,L')) : ∃ p rest a, L.replies = p::rest ∧ read p = some a ∧
      r = some a ∧ L' = { L with replies := rest } := by
  unfold ControlLine.receive at h
  split at h
  · cases h
  · rename_i p rest hp
    obtain ⟨a,ha,he⟩ := Option.map_eq_some_iff.mp h
    obtain ⟨rfl,rfl⟩ := Prod.mk.inj he
    exact ⟨p,rest,a,hp,ha,rfl,rfl⟩

theorem ensures_recvCommand {f : Option Text → Console β} (hfault : Ensures lib (f none) Q L.cut)
    (hreply : ∀ type data rest, L.replies = .command type data::rest →
      Ensures lib (f (some data)) Q { L with replies := rest }) :
    Ensures lib (Client.recvCommand >>= f) Q L := by
  rintro ⟨c,cs⟩ r L' _ hx
  cases c with
  | count n => cases hx
  | fault =>
    obtain ⟨rfl,rfl⟩ := Prod.mk.inj (Option.some.inj hx)
    exact hfault
  | ok =>
    obtain ⟨p,rest,a,hp,ha,rfl,rfl⟩ := receive_some hx
    cases p with
    | command type data =>
      obtain rfl := Option.some.inj ha
      exact hreply type _ rest hp
    | _ => cases ha

theorem ensures_recvAuth {f : Option AuthReply → Console β} (hfault : Ensures lib (f none) Q L.cut)
    (hreply : ∀ reply rest, L.replies = .auth reply::rest →
      Ensures lib (f (some reply)) Q { L with replies := rest }) :
    Ensures lib (Client.recvAuthReply >>= f) Q L := by
  rintro ⟨c,cs⟩ r L' _ hx
  cases c with
  | count n => cases hx
  | fault =>
    obtain ⟨rfl,rfl⟩ := Prod.mk.inj (Option.some.inj hx)
    exact hfault
  | ok =>
    obtain ⟨p,rest,a,hp,ha,rfl,rfl⟩ := receive_some hx
    cases p with
    | auth reply =>
      obtain rfl := Option.some.inj ha
      exact hreply _ rest hp
    | _ => cases ha

end Rules

section Quiet

variable {lib : Library} {L L' : ControlLine}

/-- No reply has arrived that is not awaited, and never more than one. -/
structure Balanced (due : Option PacketKind) (L : ControlLine) : Prop where
  settled : due = none ∨ L.lost = true → L.replies = []
  single : L.replies.length ≤ 1

/-- The connection has not come back, and the session stands where it stood. -/
def Stayed (L L' : ControlLine) : Prop :=
  L'.lost = false → L.lost = false ∧ L'.session = L.session

theorem balanced_cut (due : Option PacketKind) (L : ControlLine) : Balanced due L.cut :=
  ⟨fun _ => rfl,Nat.zero_le _⟩

theorem receive_stayed {α : Type} {read : Packet → Option α} {r : Option α}
    {due : Option PacketKind} (hb : Balanced due L) (h : L.receive read = some (r,L')) :
    Balanced none L' ∧ Stayed L L' := by
  obtain ⟨p,rest,a,hp,_,_,rfl⟩ := receive_some h
  have hrest : rest = [] := by
    have hle := hb.single
    rw [hp,List.length_cons] at hle
    exact List.length_eq_zero_iff.mp (by omega)
  exact ⟨⟨fun _ => hrest,by simp [hrest]⟩,fun hl => ⟨hl,rfl⟩⟩

theorem exec_stayed {o : Client.Op} {due : Option PacketKind} {c : Turn} {r : o.Res}
    (hb : Balanced due L) (hdue : o.hears = due) (ho : o.stays = true)
    (hx : ControlLine.exec lib (.inl o) L c = some (r,L')) :
    Balanced (o.awaits r) L' ∧ Stayed L L' := by
  have hcut : ∀ due', Balanced due' L.cut ∧ Stayed L L.cut := fun due' =>
    ⟨balanced_cut due' L,fun hl => by cases hl⟩
  by_cases haside : o.aside = true
  · rw [exec_aside haside] at hx
    obtain ⟨⟨r₁,s⟩,_,he⟩ := Option.map_eq_some_iff.mp hx
    obtain ⟨rfl,rfl⟩ := Prod.mk.inj he
    have hnone : due = none := hdue.symm.trans (Client.hears_aside haside)
    have hreplies := hb.settled (.inl hnone)
    exact ⟨⟨fun _ => hreplies,hb.single⟩,fun hl => ⟨hl,rfl⟩⟩
  obtain ⟨c,cs⟩ := c
  cases o <;> first | exact absurd rfl haside | skip
  case sendCommand p =>
    have hnone := hb.settled (.inl hdue.symm)
    cases c with
    | count n => cases hx
    | fault =>
      obtain ⟨rfl,rfl⟩ := Prod.mk.inj (Option.some.inj hx)
      exact hcut _
    | ok =>
      simp only [ControlLine.exec] at hx
      split at hx
      · obtain ⟨rfl,rfl⟩ := Prod.mk.inj (Option.some.inj hx)
        exact ⟨⟨fun _ => hnone,by simp [hnone]⟩,fun hl => ⟨hl,rfl⟩⟩
      · rename_i hlost
        obtain ⟨L₁,hd,he⟩ := Option.map_eq_some_iff.mp hx
        obtain ⟨rfl,rfl⟩ := Prod.mk.inj he
        cases p with
        | command type data =>
          obtain ⟨ps,qs,ctx,w,hemits,hsub,rfl⟩ := dispatch_emits hd
          obtain ⟨hl,hc⟩ := Bool.and_eq_true_iff.mp ho
          have hctx := dispatch_still (of_decide_eq_true hl) (of_decide_eq_true hc)
            (Program.emits_returns _ hemits)
          have hlen := hsub.length_le.trans (dispatch_single hemits)
          refine ⟨⟨?_,by simpa [hnone] using hlen⟩,fun hl => ⟨hl,hctx⟩⟩
          rintro (hawaits | hl)
          · cases hawaits
          · exact absurd hl hlost
        | _ => cases hd
  case recvPlan =>
    cases c with
    | count n => cases hx
    | fault =>
      obtain ⟨rfl,rfl⟩ := Prod.mk.inj (Option.some.inj hx)
      exact hcut _
    | ok => exact receive_stayed hb hx
  case recvTicket =>
    cases c with
    | count n => cases hx
    | fault =>
      obtain ⟨rfl,rfl⟩ := Prod.mk.inj (Option.some.inj hx)
      exact hcut _
    | ok => exact receive_stayed hb hx

theorem ensures_stays {α : Type} (p : Client α) {due : Option PacketKind} (ht : Client.Talks due p)
    (hp : Client.Stays p) (hb : Balanced due L) :
    Ensures lib (Client.ofClient p) (fun _ L' => Balanced none L' ∧ Stayed L L') L := by
  induction p generalizing due L with
  | ret a =>
    obtain rfl : due = none := ht
    exact ⟨hb,fun hl => ⟨hl,rfl⟩⟩
  | op o k ih =>
    intro c r L₁ _ hx
    obtain ⟨hb₁,hstay⟩ := exec_stayed hb ht.1 hp.1 hx
    refine Machine.wlp_mono _ ?_ (ih r (ht.2 r) (hp.2 r) hb₁)
    rintro _ L₂ ⟨hb₂,hstay₂⟩
    refine ⟨hb₂,fun hl => ?_⟩
    obtain ⟨hl₁,hs₂⟩ := hstay₂ hl
    obtain ⟨hl₀,hs₁⟩ := hstay hl₁
    exact ⟨hl₀,hs₂.trans hs₁⟩

end Quiet

namespace Visit

variable {lib : Library} {V V' : Visit} {state : Client.ClientState} {L : ControlLine}

/-- Between two commands: nothing is under way, and the paths are one. -/
structure Rested (V : Visit) : Prop where
  replies : V.line.replies = []
  path : V.OnePath

/-- A program for one command, started between two commands, comes to rest. -/
abbrev Rests (lib : Library) (p : Console (Client.ClientState × ℤ)) (L : ControlLine) : Prop :=
  Ensures lib p (fun r L' => Rested ⟨r.1,L'⟩) L

theorem rested_cut (state : Client.ClientState) (L : ControlLine) : Rested ⟨state,L.cut⟩ :=
  ⟨rfl,fun hl => by cases hl⟩

theorem rested_client (h : Rested ⟨state,L⟩) (s : Client.State) :
    Rested ⟨state,{ L with client := s }⟩ :=
  ⟨h.replies,h.path⟩

theorem rests_say {msg : String} {ret : ℤ} (h : Rested ⟨state,L⟩) :
    Rests lib (Client.say msg >>= fun _ => pure (state,ret)) L :=
  ensures_say fun s => rested_client h s

theorem loginContext_userId (ctx : ClientContext) (userId : ℤ) :
    (loginContext ctx userId).userId = userId := by
  unfold loginContext
  split <;> rfl

theorem loginContext_number {ctx : ClientContext} {m n : ℤ}
    (h : loginContext ctx m = loginContext ctx n) : m = n := by
  rw [← loginContext_userId ctx m,h,loginContext_userId]

/-- A login from outside, or in the root directory, leads to the root directory. -/
theorem loginContext_home {ctx : ClientContext} {userId : ℤ} (hid : userId ≠ -1)
    (hpath : ctx.userId ≠ -1 → ctx.currentPath = "/".toList) :
    (loginContext ctx userId).currentPath = "/".toList := by
  unfold loginContext
  split
  · rfl
  · rename_i hin
    exact hpath fun hout => hin ⟨hout,hid⟩

theorem rested_reply {cmdType type : CmdType} {arg data : Text} {ctx : ClientContext} {w : World Unit}
    (hl : cmdType ≠ .login) (harg : arg.length < cmdDataLen) (hV : Rested ⟨state,L⟩)
    (hemits : Emits (dispatchControlCommand L.session cmdType arg) [.command type data] ctx) :
    (cmdType = .cd ∧ (if isInfix "成功".toList data then (1 : ℤ) else 0) = 1 →
      Rested ⟨Client.updateClientPathAfterCd state arg,
        { L with session := ctx, world := w, replies := [] }⟩) ∧
    (¬(cmdType = .cd ∧ (if isInfix "成功".toList data then (1 : ℤ) else 0) = 1) →
      Rested ⟨state,{ L with session := ctx, world := w, replies := [] }⟩) := by
  by_cases hc : cmdType = .cd
  · subst hc
    by_cases hout : L.session.userId = -1
    · obtain ⟨-,rfl⟩ := dispatch_refused hout (by decide) (by decide) hemits
      exact ⟨fun _ => ⟨rfl,fun _ hin => absurd hout hin⟩,fun _ => ⟨rfl,fun _ hin => absurd hout hin⟩⟩
    · have he := dispatch_cd hout hemits
      generalize hps : [Packet.command type data] = ps at he
      have hsuccess : isInfix "成功".toList ("进入目录成功".toList.take (cmdDataLen-1)) = true := by
        decide +kernel
      cases he with
      | stayed text failure =>
        obtain ⟨-,rfl⟩ : type = .reply ∧ data = text.take (cmdDataLen-1) := by
          simpa [initCommandPacket] using hps
        rw [if_neg (show ¬isInfix "成功".toList (text.take (cmdDataLen-1)) = true from failure)]
        exact ⟨fun h => absurd h.2 (by decide),fun _ => ⟨rfl,hV.path⟩⟩
      | here dot =>
        obtain ⟨-,rfl⟩ : type = .reply ∧ data = "进入目录成功".toList.take (cmdDataLen-1) := by
          simpa only [initCommandPacket,List.cons.injEq,Packet.command.injEq,and_true] using hps
        rw [if_pos hsuccess]
        refine ⟨fun _ => ⟨rfl,?_⟩,fun h => absurd ⟨rfl,rfl⟩ h⟩
        rw [Client.updateClientPathAfterCd,if_pos dot]
        exact hV.path
      | entered dirId named short =>
        obtain ⟨-,rfl⟩ : type = .reply ∧ data = "进入目录成功".toList.take (cmdDataLen-1) := by
          simpa only [initCommandPacket,List.cons.injEq,Packet.command.injEq,and_true] using hps
        rw [if_pos hsuccess]
        refine ⟨fun _ => ⟨rfl,fun hl _ => ?_⟩,fun h => absurd ⟨rfl,rfl⟩ h⟩
        have hpath : state.currentPath = L.session.currentPath := hV.path hl hout
        rw [← hpath] at short
        have hfollowed := Client.followed_cd harg named short
        rw [hpath] at hfollowed
        exact hfollowed
  · obtain rfl := dispatch_still hl hc (Program.emits_returns _ hemits)
    exact ⟨fun h => absurd h.1 hc,fun _ => ⟨rfl,hV.path⟩⟩

theorem rests_normal {cmdType : CmdType} {arg : Text} (hl : cmdType ≠ .login)
    (harg : arg.length < cmdDataLen) (hV : Rested ⟨state,L⟩) :
    Rests lib (Client.handleNormalCommand state cmdType arg) L := by
  refine ensures_send harg (rests_say (rested_cut _ _)) (fun _ => ?_) fun cs L' hd => ?_
  · refine ensures_bind (ensures_recvCommand (ensures_say fun s => ?_) fun type data rest hreplies => ?_)
    · exact rested_client (rested_cut _ _) s
    · rw [hV.replies] at hreplies
      cases hreplies
  · obtain ⟨ps,qs,ctx,w,hemits,hsub,rfl⟩ := dispatch_emits hd
    refine ensures_bind (ensures_recvCommand (ensures_say fun s => ?_) fun type data rest hreplies => ?_)
    · exact rested_client (rested_cut _ _) s
    · have hqs : qs = .command type data::rest := by
        rwa [hV.replies,List.nil_append] at hreplies
      obtain ⟨rfl,rfl⟩ := single_arrival hsub (dispatch_single hemits) hqs
      obtain ⟨hcd,hother⟩ := rested_reply (w := w) hl harg hV hemits
      refine ensures_sayText fun s => ?_
      by_cases h : cmdType = .cd ∧ (if isInfix "成功".toList data then (1 : ℤ) else 0) = 1
      · rw [if_pos h]
        exact rested_client (hcd h) s
      · rw [if_neg h]
        exact rested_client (hother h) s

theorem rests_login {arg : Text} (harg : arg.length < cmdDataLen) (hV : Rested ⟨state,L⟩)
    (hok : L.session.userId ≠ -1 → L.session.currentPath ≠ "/".toList →
      ¬Admits lib L.world.db arg) : Rests lib (Client.handleLoginCommand state arg) L := by
  refine ensures_send harg (rests_say (rested_cut _ _)) (fun _ => ?_) fun cs L' hd => ?_
  · refine ensures_recvAuth (rests_say (rested_cut _ _)) fun reply rest hreplies => ?_
    rw [hV.replies] at hreplies
    cases hreplies
  · obtain ⟨userId',hadmitted,hid⟩ := dispatch_admitted hd
    obtain ⟨ps,qs,ctx,w,hemits,hsub,rfl⟩ := dispatch_emits hd
    refine ensures_recvAuth (rests_say (rested_cut _ _)) fun reply rest hreplies => ?_
    have hqs : qs = .auth reply::rest := by rwa [hV.replies,List.nil_append] at hreplies
    obtain ⟨rfl,rfl⟩ := single_arrival hsub (dispatch_single hemits) hqs
    obtain ⟨userId,⟨answer,hanswer,hyes,hno⟩,rfl⟩ := dispatch_login hemits
    obtain rfl : reply = answer := by simpa using hanswer
    obtain rfl : userId = userId' := loginContext_number hadmitted
    refine ensures_sayText fun s => ?_
    split
    · rename_i hsuccess
      refine ⟨rfl,fun _ _ => ?_⟩
      have hnumber : userId ≠ -1 := by
        have := hyes hsuccess
        omega
      exact (loginContext_home hnumber fun hin => by_contra fun hpath =>
        hok hin hpath (hid hnumber)).symm
    · rename_i hfailure
      refine ⟨rfl,fun _ hin => absurd ?_ hin⟩
      rw [hno hfailure]
      exact loginContext_userId _ _

theorem rests_stays {α : Type} {p : Client α} (f : α → ℤ) (ht : Client.Talks none p)
    (hp : Client.Stays p) (hV : Rested ⟨state,L⟩) :
    Rests lib (Client.ofClient p >>= fun a => pure (state,f a)) L := by
  have hreplies : L.replies = [] := hV.replies
  have hb : Balanced none L := ⟨fun _ => hreplies,by simp [hreplies]⟩
  refine ensures_bind (Machine.wlp_mono _ ?_ (ensures_stays p ht hp hb))
  rintro ret L' ⟨hb',hstay⟩
  refine ⟨hb'.settled (.inl rfl),fun hl hin => ?_⟩
  obtain ⟨hl₀,hs⟩ := hstay hl
  rw [hs] at hin ⊢
  exact hV.path hl₀ hin

/-- Each command that meets the condition brings the two ends back to one path. -/
theorem rests_process {input : Text} {clientFileDir : Text} (hV : Rested ⟨state,L⟩)
    (hok : getCmdType (Client.parseInput input).cmd = .login → L.session.userId ≠ -1 →
      L.session.currentPath ≠ "/".toList → ¬Admits lib L.world.db (Client.parseInput input).arg) :
    Rests lib (Client.processCommand clientFileDir state input) L := by
  have harg := Client.parsed_arg input
  unfold Client.processCommand
  dsimp only
  split
  · exact rests_say hV
  split
  · exact rests_say hV
  · rename_i hlogin
    exact rests_login harg hV (hok hlogin)
  · exact rests_stays _ (Client.talks_download _ _) (Client.stays_download _ _) hV
  · exact rests_stays id (Client.talks_puts _ _) (Client.stays_puts _ _) hV
  · rename_i _ hl _ _
    exact rests_normal hl harg hV

theorem step_rested {clientFileDir : Text} {e : VisitEvent} (hV : V.Rested) (hok : V.Homeward lib e)
    (h : V.step lib clientFileDir e = some V') : V'.Rested := by
  cases e with
  | command input turns =>
    obtain ⟨⟨⟨state,ret⟩,L⟩,hrun,rfl⟩ := Option.map_eq_some_iff.mp h
    exact Machine.exec_wlp (Machine.run_exec hrun) (rests_process hV hok)
  | background s =>
    obtain rfl := Option.some.inj h
    exact ⟨hV.replies,hV.path⟩
  | others w =>
    obtain rfl := Option.some.inj h
    exact ⟨hV.replies,hV.path⟩

end Visit

/-- In every run whose logins are made from outside or in the root directory,
the client's path is the server's behind each command. -/
theorem visit_one_path (lib : Library) (clientFileDir : Text) (s : Client.State) (w : World Unit)
    (V : Visit)
    (run : Runs.Reached (Visit.step lib clientFileDir) (Visit.Homeward lib) (Visit.start s w) V) :
    V.OnePath :=
  (Runs.reached_invariant (I := Visit.Rested) ⟨rfl,fun _ hin => absurd rfl hin⟩
    (fun _ _ _ => Visit.step_rested) run).path

namespace Relogin

def documents : World Unit :=
  { world with db := { world.db with paths := [⟨7,1,"/doc".toList,none,0,"doc".toList,1⟩] } }

/-- Every operation of the client succeeds; `cs` are the server's outcomes. -/
def request (input : String) (cs : List Choice) : VisitEvent :=
  .command input.toList [(.ok,cs),(.ok,[]),(.ok,[])]

def enter : List VisitEvent :=
  [request "login a/b" [.ok,.ok,.value 0,.ok,.ok],request "cd doc" [.ok,.ok]]

/-- No login but the first. -/
def firstLogin (V : Visit) : VisitEvent → Bool
  | .command input _ =>
    decide (getCmdType (Client.parseInput input).cmd ≠ .login) ||
      decide (V.line.session.userId = -1)
  | _ => true

theorem firstLogin_homeward (V : Visit) (e : VisitEvent) (h : firstLogin V e = true) : V.Homeward lib e := by
  cases e with
  | command input turns =>
    intro hlogin hin
    rcases Bool.or_eq_true_iff.mp h with h | h
    · exact absurd hlogin (of_decide_eq_true h)
    · exact absurd (of_decide_eq_true h) hin
  | _ => trivial

def paths (V : Visit) : Text × Text × Bool × ℤ :=
  (V.state.currentPath,V.line.session.currentPath,V.line.lost,V.line.session.userId)

end Relogin

open Relogin in
theorem documents_one_path : ∃ V : Visit, V.OnePath ∧
    paths V = ("/doc".toList,"/doc".toList,false,1) := by
  have h : (Runs.replay (Visit.step lib "files".toList) firstLogin enter
      (Visit.start files documents)).map paths =
      some ("/doc".toList,"/doc".toList,false,1) := by
    decide +kernel
  obtain ⟨V,hV,hpaths⟩ := Option.map_eq_some_iff.mp h
  have hrun := Runs.reached_mono firstLogin_homeward (Runs.replay_reached hV)
  exact ⟨V,visit_one_path lib _ files documents V hrun,hpaths⟩

open Relogin in
/-- A second login takes the client back to the root, and leaves the session
where it is. -/
theorem second_login_two_paths : ¬∀ (lib : Library) (clientFileDir : Text) (s : Client.State)
    (w : World Unit) (V : Visit),
    Runs.Reached (Visit.step lib clientFileDir) (fun _ _ => True) (Visit.start s w) V →
      V.OnePath := by
  intro hall
  have h : (Runs.replay (Visit.step lib "files".toList) (fun _ _ => true)
      (enter ++ [request "login a/b" [.ok,.ok,.value 0,.ok,.ok]])
      (Visit.start files documents)).map paths =
      some ("/".toList,"/doc".toList,false,1) := by
    decide +kernel
  obtain ⟨V,hV,hpaths⟩ := Option.map_eq_some_iff.mp h
  have hrun := Runs.reached_mono (fun _ _ _ => trivial) (Runs.replay_reached hV)
  have hone := hall lib _ files documents V hrun
  simp only [paths,Prod.mk.injEq] at hpaths
  obtain ⟨hclient,hserver,hlost,hid⟩ := hpaths
  have hsame := hone hlost (by rw [hid]; decide)
  rw [hclient,hserver] at hsame
  exact absurd hsame (by decide)

end WindCloud
