import WindCloud.Server.TicketSafety
import WindCloud.Server.Usage

/-!
# The outline of a ticket call

Issuing, using and preparing tickets, operation by operation, under the
invariant of interleaved ticket calls.
-/

set_option autoImplicit false

namespace WindCloud
open CString Effect Function TicketTable

section Outlines

variable {κ ι : Type} [DecidableEq κ] [DecidableEq ι] (lib : Library)
  (G : κ × ι → Grant → Prop) (a : κ × ι) {α β : Type}

abbrev Ticketing (p : Server α) (Q : TicketStage → α → Prop) (ℓ : TicketStage) : Prop :=
  Outline (clockedCluster κ ι lib) (Genuine lib) (Ticketed lib G) a p Q ℓ

variable {lib G a} {Q : TicketStage → α → Prop} {ℓ : TicketStage}
  {Λ : κ × ι → TicketStage} {s s' : Cluster κ ι × (κ × ι → Option ℤ)}

theorem clocked_step {o : Op} {c : Choice} {r : o.Res}
    (h : (clockedCluster κ ι lib).exec o a s c = some (r,s')) :
    ∃ w, execute lib o a.2 (s.1.view a.1) c = some (r,w) ∧
      s' = (s.1.put a.1 w,update s.2 a (noteClock o r s.1 (s.2 a))) := by
  obtain ⟨hx,hc⟩ := recorded_exec h
  obtain ⟨⟨r',w⟩,hw,he⟩ := Option.map_eq_some_iff.mp hx
  obtain ⟨rfl,hs⟩ := Prod.mk.inj he
  exact ⟨w,hw,Prod.ext hs.symm hc⟩

omit [DecidableEq ι] in
theorem put_view (s : Cluster κ ι) (k : κ) : s.put k (s.view k) = s := by
  simp [Cluster.put,Cluster.view]

omit [DecidableEq ι] in
theorem put_tickets (s : Cluster κ ι) (k l : κ) (w : World ι) :
    ((s.put k w).nodes l).tickets = if l = k then w.node.tickets else (s.nodes l).tickets := by
  by_cases hl : l = k
  · subst hl
    simp [Cluster.put]
  · simp [Cluster.put,hl]

omit [DecidableEq ι] in
theorem put_sent (s : Cluster κ ι) (k : κ) (w : World ι)
    (h : ∀ j, (w.node.conn j).sent = ((s.nodes k).conn j).sent) (b : κ × ι) :
    (((s.put k w).nodes b.1).conn b.2).sent = ((s.nodes b.1).conn b.2).sent := by
  by_cases hb : b.1 = k
  · subst hb
    simpa [Cluster.put] using h b.2
  · simp [Cluster.put,hb]

omit [DecidableEq κ] [DecidableEq ι] in
theorem noteClock_of_ne {o : Op} (h : o ≠ .time) (r : o.Res) (x : Cluster κ ι)
    (clock : Option ℤ) : noteClock o r x clock = clock := by
  cases o <;> first | exact absurd rfl h | rfl

theorem same_step {o : Op} {c : Choice} {r : o.Res} (ho : o.unticketed = true)
    (h : (clockedCluster κ ι lib).exec o a s c = some (r,s')) : SameTickets s s' := by
  obtain ⟨w,hx,rfl⟩ := clocked_step h
  obtain ⟨hm,hd,ht,hs⟩ := execute_unticketed ho hx
  have hne : o ≠ .time := by
    rintro rfl
    cases ho
  constructor
  · simp [noteClock_of_ne hne]
  · exact hm
  · exact hd
  · intro l
    rw [put_tickets]
    split
    · subst_vars
      exact ht
    · rfl
  · intro b p hp _
    rwa [put_sent _ _ _ hs] at hp

theorem ticketing_op {o : Op} {f : o.Res → Server α}
    (h : ∀ Λ s c r s', Λ a = ℓ → Ticketed lib G Λ s → Genuine lib a o s c →
      (clockedCluster κ ι lib).exec o a s c = some (r,s') →
      ∃ ℓ', Ticketed lib G (update Λ a ℓ') s' ∧ Ticketing lib G a (f r) Q ℓ') :
    Ticketing lib G a (perform o >>= f) Q ℓ := h

theorem ticketing_same {o : Op} {f : o.Res → Server α} (ho : o.unticketed = true)
    (hf : ∀ r, Ticketing lib G a (f r) Q ℓ) : Ticketing lib G a (perform o >>= f) Q ℓ :=
  outline_frame (fun _ _ _ _ _ _ hi _ hx => ticketed_same hi (same_step ho hx)) hf

theorem ticketing_bind {p : Server α} {f : α → Server β} {Q : TicketStage → β → Prop}
    {R : TicketStage → α → Prop} (hp : Ticketing lib G a p R ℓ)
    (hf : ∀ ℓ' x, R ℓ' x → Ticketing lib G a (f x) Q ℓ') : Ticketing lib G a (p >>= f) Q ℓ :=
  outline_bind (outline_mono hf hp)

theorem ticketing_uses {p : Server α} (hp : p.Uses fun o => o.unticketed = true)
    (hQ : ∀ x, Q ℓ x) : Ticketing lib G a p Q ℓ := by
  induction p with
  | ret x => exact hQ x
  | op o k ih => exact ticketing_same hp.1 fun r => ih r (hp.2 r)

theorem keep_stage (hl : Λ a = ℓ) (h : Ticketed lib G Λ s) : Ticketed lib G (update Λ a ℓ) s := by
  rwa [← hl,update_eq_self]

theorem ticketing_time {f : ℤ → Server α}
    (hf : ∀ now, Ticketing lib G a (f now) Q (.timed now)) :
    Ticketing lib G a (perform .time >>= f) Q .idle := by
  refine ticketing_op (o := .time) fun Λ s c r s' hl hi _ hx => ?_
  obtain ⟨w,hw,rfl⟩ := clocked_step hx
  obtain rfl := execute_quiet rfl hw
  refine ⟨.timed r,?_,hf r⟩
  rw [put_view,hi.fresh a hl]
  exact ticketed_time hi hl r

theorem ticketing_retime {f : ℤ → Server α} (hc : ℓ.clock ≠ none)
    (hf : ∀ now, Ticketing lib G a (f now) Q ℓ) : Ticketing lib G a (perform .time >>= f) Q ℓ := by
  refine ticketing_op (o := .time) fun Λ s c r s' hl hi _ hx => ?_
  obtain ⟨w,hw,rfl⟩ := clocked_step hx
  obtain rfl := execute_quiet rfl hw
  refine ⟨ℓ,?_,hf r⟩
  obtain ⟨now,hnow⟩ := Option.ne_none_iff_exists'.mp hc
  have hclk := hi.clocks a now (by rw [hl,hnow])
  have hnote : noteClock .time r s.1 (s.2 a) = s.2 a := by rw [hclk]; rfl
  rw [put_view,hnote,update_eq_self]
  exact keep_stage hl hi

theorem ticketing_generate {now : ℤ} {f : Option Text → Server α}
    (hnone : Ticketing lib G a (f none) Q (.timed now))
    (hsome : ∀ id, id ≠ [] → Ticketing lib G a (f (some id)) Q (.numbered now id)) :
    Ticketing lib G a (generateTicketId >>= f) Q (.timed now) := by
  refine ticketing_op (o := .randBytes 16) fun Λ s c r s' hl hi hg hx => ?_
  obtain ⟨w,hw,rfl⟩ := clocked_step hx
  rw [noteClock_of_ne (by simp),update_eq_self]
  cases c with
  | bytes bs =>
    simp only [execute] at hw
    by_cases hb : bs.length = 16 ∧ ∀ b ∈ bs, b < 256
    · rw [if_pos hb] at hw
      obtain ⟨rfl,rfl⟩ := Prod.mk.inj (Option.some.inj hw)
      refine ⟨.numbered now (Hex.hexLower bs),?_,hsome _ ?_⟩
      · refine ticketed_same (ticketed_draw hi hl hb.1 hb.2 hg)
          ⟨rfl,rfl,rfl,fun l => ?_,fun b p hp _ => ?_⟩
        · rw [put_tickets]
          split
          · subst_vars
            rfl
          · rfl
        · rwa [put_sent _ _ _ (fun _ => rfl)] at hp
      · intro he
        have hlen := congrArg List.length he
        obtain ⟨b,bs',rfl⟩ : ∃ b bs', bs = b::bs' := by
          cases bs with
          | nil => simp at hb
          | cons b bs' => exact ⟨b,bs',rfl⟩
        simp [Hex.hexLower] at hlen
    · rw [if_neg hb] at hw
      cases hw
  | fault =>
    obtain ⟨rfl,rfl⟩ : none = r ∧ s.1.view a.1 = w := by simpa [execute] using hw
    exact ⟨.timed now,by rw [put_view]; exact keep_stage hl hi,hnone⟩
  | ok => simp [execute] at hw
  | count n => simp [execute] at hw
  | value n => simp [execute] at hw

theorem ticketing_encode {now τ : ℤ} {id : Text} {g : Grant} (hg : G a g) {f : Option Text → Server α}
    (hnone : Ticketing lib G a (f none) Q (.numbered now id))
    (hsome : ∀ t, Ticketing lib G a (f (some t)) Q (.signed now id g t)) :
    Ticketing lib G a (perform (.jwtEncode (ticketParams g id τ)) >>= f) Q (.numbered now id) := by
  refine ticketing_op (o := .jwtEncode _) fun Λ s c r s' hl hi _ hx => ?_
  obtain ⟨w,hw,rfl⟩ := clocked_step hx
  rw [noteClock_of_ne (by simp),update_eq_self]
  cases c with
  | ok =>
    obtain ⟨rfl,rfl⟩ : lib.encode (ticketParams g id τ) = r ∧
        { s.1.view a.1 with minted := (s.1.view a.1).minted ++
          (lib.encode (ticketParams g id τ)).toList } = w := by simpa [execute] using hw
    cases he : lib.encode (ticketParams g id τ) with
    | none =>
      refine ⟨.numbered now id,?_,hnone⟩
      simp only [Option.toList_none,List.append_nil]
      rw [show (s.1.put a.1 (s.1.view a.1)) = s.1 from put_view _ _]
      exact keep_stage hl hi
    | some t =>
      refine ⟨.signed now id g t,?_,hsome t⟩
      refine ticketed_same (ticketed_sign hi hl ⟨⟨τ,he⟩,hg⟩)
        ⟨rfl,rfl,rfl,fun l => ?_,fun b p hp _ => ?_⟩
      · rw [put_tickets]
        split
        · subst_vars
          rfl
        · rfl
      · rwa [put_sent _ _ _ (fun _ => rfl)] at hp
  | fault =>
    obtain ⟨rfl,rfl⟩ : none = r ∧ s.1.view a.1 = w := by simpa [execute] using hw
    exact ⟨.numbered now id,by rw [put_view]; exact keep_stage hl hi,hnone⟩
  | count n => simp [execute] at hw
  | value n => simp [execute] at hw
  | bytes bs => simp [execute] at hw

theorem execute_ticketRegister {ι : Type} [DecidableEq ι] {i : ι} {w w' : World ι} {c : Choice}
    {now : ℤ} {id : Text} {r : Bool}
    (h : execute lib (.ticketRegister now id) i w c = some (r,w')) :
    r = (w.node.tickets.register now id).1 ∧ w' = w.setNode
      { w.node with tickets := (w.node.tickets.register now id).2 } := by
  cases c with
  | ok =>
    obtain ⟨rfl,rfl⟩ := Prod.mk.inj (Option.some.inj h)
    exact ⟨rfl,rfl⟩
  | _ => cases h

theorem execute_ticketConsume {ι : Type} [DecidableEq ι] {i : ι} {w w' : World ι} {c : Choice}
    {now : ℤ} {id : Text} {r : Bool}
    (h : execute lib (.ticketConsume now id) i w c = some (r,w')) :
    r = (w.node.tickets.consume now id).1 ∧ w' = w.setNode
      { w.node with tickets := (w.node.tickets.consume now id).2 } := by
  cases c with
  | ok =>
    obtain ⟨rfl,rfl⟩ := Prod.mk.inj (Option.some.inj h)
    exact ⟨rfl,rfl⟩
  | _ => cases h

theorem ticketing_enter {now : ℤ} {id : Text} {g : Grant} {t : Text}
    {Q : TicketStage → Option Text → Prop}
    (hnone : Q (.signed now id g t) none) (hsome : Q (.entered now id g t) (some t)) :
    Ticketing lib G a (enterTicket now id t) Q (.signed now id g t) := by
  refine ticketing_op (o := .ticketRegister now id) fun Λ s c r s' hl hi _ hx => ?_
  obtain ⟨w,hw,rfl⟩ := clocked_step hx
  rw [noteClock_of_ne (by simp),update_eq_self]
  obtain ⟨rfl,rfl⟩ := execute_ticketRegister hw
  rcases register_cases (s.1.view a.1).node.tickets now id with he | ⟨slot,hslot,_,he⟩
  · rw [he]
    refine ⟨.signed now id g t,keep_stage hl (ticketed_cleanup hi (k := a.1) (t := now) ?_ rfl rfl
      rfl (put_sent _ _ _ fun _ => rfl)),hnone⟩
    exact fun l => put_tickets _ _ _ _
  · rw [he]
    refine ⟨.entered now id g t,ticketed_enter hi hl hslot ?_ rfl rfl rfl
      (put_sent _ _ _ fun _ => rfl),hsome⟩
    exact fun l => put_tickets _ _ _ _

theorem ticketing_issue {g : Grant} (hg : G a g) (size : ℕ) :
    Ticketing lib G a (issueTransferTicket g size)
      (fun ℓ r => match r with
        | none => ∀ now id g t, ℓ ≠ .entered now id g t
        | some t => t.length < size ∧ ∃ now id, ℓ = .entered now id g t) .idle := by
  refine ticketing_time fun now => ?_
  split
  · simp [Outline]
  · refine ticketing_generate (by simp [Outline]) fun id _ => ?_
    refine ticketing_bind (R := fun ℓ r => match r with
      | none => ∀ now id g t, ℓ ≠ .entered now id g t
      | some t => t.length < size ∧ ℓ = .signed now id g t) ?_ ?_
    · refine ticketing_retime (by simp [TicketStage.clock]) fun τ => ?_
      split
      · simp [Outline]
      · refine ticketing_encode hg (by simp [Outline]) fun t => ?_
        by_cases ht : t.length < size
        · simp [Outline,bounded,ht]
        · simp [Outline,bounded,ht]
    · rintro ℓ (_ | t) hr
      · exact hr
      · obtain ⟨ht,rfl⟩ := hr
        exact ticketing_enter (by simp) ⟨ht,now,id,rfl⟩

theorem ticketing_decode {now : ℤ} {t : Text} {m n k l : ℕ} (hlib : lib.Faithful)
    {f : Option (Grant × Text) → Server α} (hnone : Ticketing lib G a (f none) Q (.timed now))
    (hsome : ∀ g id, Names lib t g id →
      Ticketing lib G a (f (some (g,id))) Q (.decoded now id g t)) :
    Ticketing lib G a (jwtVerifyTransferTicket t m n k l >>= f) Q (.timed now) := by
  unfold jwtVerifyTransferTicket
  split
  · exact hnone
  · refine ticketing_op (o := .jwtDecode _ _ _ _) fun Λ s c r s' hl hi hg hx => ?_
    obtain ⟨w,hw,rfl⟩ := clocked_step hx
    rw [noteClock_of_ne (by simp),update_eq_self]
    obtain rfl := execute_quiet rfl hw
    rw [put_view]
    have hkeep : ∃ ℓ', Ticketed lib G (update Λ a ℓ') s ∧ Ticketing lib G a (f none) Q ℓ' :=
      ⟨.timed now,keep_stage hl hi,hnone⟩
    cases c with
    | value τ =>
      have hr : lib.decode transferTicketIssuer transferTicketAudience jwtSecretKey t τ = r := by
        simpa [execute] using hw
      cases r with
      | none => exact hkeep
      | some cs =>
        cases hread : readTicket cs m n k l with
        | none =>
          obtain ⟨ℓ',h1,h2⟩ := hkeep
          refine ⟨ℓ',h1,?_⟩
          change Ticketing lib G a (f (readTicket cs m n k l)) Q ℓ'
          rwa [hread]
        | some x =>
          obtain ⟨g,id⟩ := x
          have hmint : t ∈ s.1.minted := by
            rcases hg with hg | hg
            · rw [hr] at hg
              cases hg
            · exact hg
          obtain ⟨b,id',g',hb⟩ := hi.minted t hmint
          have hnames := readTicket_names hlib hr hread
          obtain ⟨rfl,rfl⟩ := hnames g' id' (hi.signed b id' g' t hb).1
          refine ⟨.decoded now id' g' t,ticketed_decode hi hl ⟨b,hb⟩,?_⟩
          change Ticketing lib G a (f (readTicket cs m n k l)) Q _
          rw [hread]
          exact hsome _ _ hnames
    | fault =>
      obtain rfl : none = r := by simpa [execute] using hw
      exact hkeep
    | ok => simp [execute] at hw
    | count n => simp [execute] at hw
    | bytes bs => simp [execute] at hw

theorem ticketing_verify (hlib : lib.Faithful) (t : Text) (m n k : ℕ) :
    Ticketing lib G a (verifyAndConsumeTransferTicket t m n k)
      (fun ℓ r => ∀ g, r = some g → ∃ now id, ℓ = .accepted now id g t ∧ Names lib t g id)
      .idle := by
  refine ticketing_time fun now => ?_
  refine ticketing_decode (t := t) hlib (by simp [Outline]) fun g id hnames => ?_
  refine ticketing_op (o := .ticketConsume now id) fun Λ s c r s' hl hi _ hx => ?_
  obtain ⟨w,hw,rfl⟩ := clocked_step hx
  rw [noteClock_of_ne (by simp),update_eq_self]
  obtain ⟨rfl,rfl⟩ := execute_ticketConsume hw
  rcases consume_cases (s.1.view a.1).node.tickets now id with he | ⟨slot,e,hact,he⟩
  · rw [he]
    refine ⟨.decoded now id g t,keep_stage hl (ticketed_cleanup hi (k := a.1) (t := now) ?_ rfl rfl
      rfl (put_sent _ _ _ fun _ => rfl)),by simp [Outline]⟩
    exact fun l => put_tickets _ _ _ _
  · rw [he]
    refine ⟨.accepted now id g t,ticketed_accept hi hl hact ?_ rfl rfl rfl
      (put_sent _ _ _ fun _ => rfl),?_⟩
    · exact fun l => put_tickets _ _ _ _
    · rintro g' ⟨⟩
      exact ⟨now,id,rfl,hnames⟩

theorem deliver_sent (n : Node ι) (i j : ι) (p q : Packet) :
    q ∈ ((n.deliver i p).conn j).sent ↔ q ∈ (n.conn j).sent ∨ (j = i ∧ q = p) := by
  by_cases hj : j = i
  · subst hj
    simp [Node.deliver,Node.setConn]
  · simp [Node.deliver,Node.setConn,hj]

theorem ticketed_deliver (h : Ticketed lib G Λ s) {p : Packet}
    (hp : ∀ q, p = .ticket q → q.success = 1 → ∃ now id g, Λ a = .entered now id g q.ticket) :
    Ticketed lib G Λ
      (s.1.put a.1 ((s.1.view a.1).setNode ((s.1.nodes a.1).deliver a.2 p)),s.2) where
  clocks := h.clocks
  fresh := h.fresh
  drawn := h.drawn
  apart := h.apart
  minted := h.minted
  signed := h.signed
  distinct := by
    intro k
    rw [put_tickets]
    split
    · subst_vars
      exact h.distinct _
    · exact h.distinct k
  table := by
    intro k
    rw [put_tickets]
    split
    · subst_vars
      exact h.table _
    · exact h.table k
  decoded := h.decoded
  accepted := h.accepted
  told := by
    intro b q hq h1
    by_cases hb : b.1 = a.1
    · have hq' : Packet.ticket q ∈ (((s.1.nodes a.1).deliver a.2 p).conn b.2).sent := by
        simpa [Cluster.put,hb] using hq
      rcases (deliver_sent _ _ _ _ _).mp hq' with hold | ⟨hi,rfl⟩
      · exact h.told b q (by rwa [hb]) h1
      · obtain rfl : b = a := Prod.ext hb hi
        exact hp q rfl h1
    · exact h.told b q (by simpa [Cluster.put,hb] using hq) h1

theorem ticketing_send {p : Packet} {f : Bool → Server α}
    (hp : ∀ q, p = .ticket q → q.success = 1 → ∃ now id g, ℓ = .entered now id g q.ticket)
    (hf : ∀ r, Ticketing lib G a (f r) Q ℓ) : Ticketing lib G a (perform (.send p) >>= f) Q ℓ := by
  refine ticketing_op (o := .send p) fun Λ s c r s' hl hi _ hx => ?_
  obtain ⟨w,hw,rfl⟩ := clocked_step hx
  rw [noteClock_of_ne (by simp),update_eq_self]
  refine ⟨ℓ,?_,hf r⟩
  rcases execute_send hw with ⟨_,_,rfl⟩ | ⟨_,_,rfl⟩
  · exact keep_stage hl (ticketed_deliver hi fun q hq h1 => by rw [hl]; exact hp q hq h1)
  · rw [put_view]
    exact keep_stage hl hi

theorem ticketing_refuse {message : String} {Q : TicketStage → Unit → Prop} (hQ : Q ℓ ()) :
    Ticketing lib G a (refuseTicket message) Q ℓ := by
  refine ticketing_send (fun q hq h1 => ?_) fun _ => hQ
  cases hq
  cases h1

theorem reply_ticket {t : Text} (ht : t.length < transferTicketLen) (message : String) :
    (initTransferTicketReplyPacket 1 message (some t)).ticket = t := by
  unfold initTransferTicketReplyPacket
  exact List.take_of_length_le (by simpa using Nat.le_sub_one_of_lt ht)

theorem ticketing_grant {g : Grant} (hg : G a g) {f : Option Text → Server Unit}
    (no yes : String) (hnone : f none = refuseTicket no)
    (hsome : ∀ t, f (some t) = sendTransferTicketReplyPacket
      (initTransferTicketReplyPacket 1 yes (some t))) :
    Ticketing lib G a (issueTransferTicket g transferTicketLen >>= f) (fun _ _ => True) .idle := by
  refine ticketing_bind (ticketing_issue hg transferTicketLen) ?_
  rintro ℓ (_ | t) hr
  · rw [hnone]
    exact ticketing_refuse trivial
  · obtain ⟨hlen,now,id,rfl⟩ := hr
    rw [hsome]
    refine ticketing_send (fun q hq _ => ?_) fun _ => trivial
    cases hq
    exact ⟨now,id,g,by rw [reply_ticket hlen]⟩

end Outlines

section Calls

variable {κ ι : Type} [DecidableEq κ] [DecidableEq ι] {lib : Library}
  {G : κ × ι → Grant → Prop} {a : κ × ι}

theorem ticketing_rangePrepare (ctx : ClientContext) (arg : Text)
    (hg : ∀ r path, parseGetsRangeTicketRequest arg fileNameLen 64 16 = some r →
      buildTransferFullPath ctx r.fileName fullPathLen = some path →
      G a (rangeGrant ctx r path)) :
    Ticketing lib G a (handleGetsRangeTicketPrepare ctx arg) (fun _ _ => True) .idle := by
  unfold handleGetsRangeTicketPrepare
  split
  · exact ticketing_refuse trivial
  · rename_i request hr
    split
    · exact ticketing_refuse trivial
    · rename_i path hp
      refine ticketing_bind (R := fun ℓ _ => ℓ = .idle)
        (ticketing_uses (getFileInfoByPath_uses (fun o => o.unticketed = true) (fun _ _ => rfl) _ _)
          fun _ => rfl) ?_
      rintro _ (_ | ⟨id,fileId⟩) rfl
      · exact ticketing_refuse trivial
      · refine ticketing_bind (R := fun ℓ _ => ℓ = .idle)
          (ticketing_uses (loadAvailableSources_uses (fun o => o.unticketed = true) rfl
            (fun _ => rfl) _) fun _ => rfl) ?_
        rintro _ (_ | sources) rfl
        · exact ticketing_refuse trivial
        · dsimp only
          split
          · exact ticketing_grant (hg request path hr hp) _ _ rfl fun _ => rfl
          · exact ticketing_refuse trivial

theorem ticketing_transferPrepare (ctx : ClientContext) (cmdType : CmdType) (arg : Text)
    (hg : ∀ path ip port, buildTransferFullPath ctx arg fullPathLen = some path →
      G a ⟨ctx.userId,cmdType.code,path,0,-1,ip,port⟩) :
    Ticketing lib G a (handleTransferPrepare ctx cmdType arg) (fun _ _ => True) .idle := by
  unfold handleTransferPrepare
  split
  · exact ticketing_refuse trivial
  · rename_i path hp
    refine ticketing_bind (R := fun ℓ _ => ℓ = .idle)
      (ticketing_uses (getCurrentServerAddress_uses (fun o => o.unticketed = true) rfl _ _)
        fun _ => rfl) ?_
    rintro _ (_ | ⟨ip,port⟩) rfl
    · exact ticketing_refuse trivial
    · exact ticketing_grant (hg path ip port hp) _ _ rfl fun _ => rfl

end Calls

end WindCloud
