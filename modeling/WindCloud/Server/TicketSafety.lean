import WindCloud.Server.Cluster

/-!
# Interleaved ticket calls

The stages of a call that makes or uses a ticket, and the invariant that ties
the tables of all servers to them: an entered number belongs to one call, which
drew it and signed the token that carries it, and is gone once a call has
accepted it.
-/

set_option autoImplicit false

namespace WindCloud
open CString Effect Function TicketTable

inductive TicketStage where
  | idle
  | timed (now : ℤ)
  | numbered (now : ℤ) (id : Text)
  | signed (now : ℤ) (id : Text) (g : Grant) (t : Text)
  | entered (now : ℤ) (id : Text) (g : Grant) (t : Text)
  | decoded (now : ℤ) (id : Text) (g : Grant) (t : Text)
  | accepted (now : ℤ) (id : Text) (g : Grant) (t : Text)
  deriving DecidableEq

namespace TicketStage

def number : TicketStage → Option Text
  | numbered _ id | signed _ id _ _ | entered _ id _ _ => some id
  | _ => none

def token : TicketStage → Option (Text × Grant × Text)
  | signed _ id g t | entered _ id g t => some (id,g,t)
  | _ => none

def clock : TicketStage → Option ℤ
  | timed now | numbered now _ | signed now _ _ _ | entered now _ _ _ | decoded now _ _ _
  | accepted now _ _ _ => some now
  | _ => none

theorem token_number {s : TicketStage} {id : Text} {g : Grant} {t : Text}
    (h : s.token = some (id,g,t)) : s.number = some id := by
  cases s <;> simp_all [token,number]

end TicketStage

def SignedAs (lib : Library) (id : Text) (g : Grant) (t : Text) : Prop :=
  ∃ now, lib.encode (ticketParams g id now) = some t

def Names (lib : Library) (t : Text) (g : Grant) (id : Text) : Prop :=
  ∀ g' id', SignedAs lib id' g' t → g' = g ∧ id' = id

/-- The invariant of all calls; call `a` may sign the grants in `G a`. -/
structure Ticketed {κ ι : Type} (lib : Library) (G : κ × ι → Grant → Prop)
    (Λ : κ × ι → TicketStage) (s : Cluster κ ι × (κ × ι → Option ℤ)) : Prop where
  clocks : ∀ a now, (Λ a).clock = some now → s.2 a = some now
  fresh : ∀ a, Λ a = .idle → s.2 a = none
  drawn : ∀ a id, (Λ a).number = some id →
    ∃ bs ∈ s.1.drawn, bs.length = 16 ∧ (∀ b ∈ bs, b < 256) ∧ Hex.hexLower bs = id
  apart : ∀ a b id, (Λ a).number = some id → (Λ b).number = some id → a = b
  minted : ∀ t ∈ s.1.minted, ∃ a id g, (Λ a).token = some (id,g,t)
  signed : ∀ a id g t, (Λ a).token = some (id,g,t) → SignedAs lib id g t ∧ G a g
  distinct : ∀ k, Distinct (s.1.nodes k).tickets
  table : ∀ k slot id e, (s.1.nodes k).tickets.Active slot id e →
    (∃ i now g t, Λ (k,i) = .entered now id g t ∧ e = now+transferTicketExpireSeconds) ∧
      ∀ b now g t, Λ b ≠ .accepted now id g t
  decoded : ∀ b now id g t, Λ b = .decoded now id g t → ∃ a, (Λ a).token = some (id,g,t)
  accepted : ∀ b now id g t, Λ b = .accepted now id g t →
    (∃ i now', Λ (b.1,i) = .entered now' id g t ∧ now < now'+transferTicketExpireSeconds) ∧
      ∀ b' now' g' t', Λ b' = .accepted now' id g' t' → b' = b
  told : ∀ a p, Packet.ticket p ∈ ((s.1.nodes a.1).conn a.2).sent → p.success = 1 →
    ∃ now id g, Λ a = .entered now id g p.ticket

section Reading

variable {lib : Library}

theorem ticketClaims_names (g : Grant) (id : Text) :
    ((ticketClaims g id).map (·.key)).Nodup ∧
      ∀ c ∈ ticketClaims g id, c.key ∉ reservedClaims := by
  constructor
  · simp only [ticketClaims,List.map_cons,List.map_nil]
    decide
  · intro c hc
    have hk : c.key ∈ (ticketClaims g id).map (·.key) := List.mem_map_of_mem hc
    simp only [ticketClaims,List.map_cons,List.map_nil] at hk
    revert hk
    generalize c.key = k
    simp only [List.mem_cons,List.not_mem_nil,or_false]
    rintro (rfl | rfl | rfl | rfl | rfl | rfl | rfl | rfl) <;> decide

theorem readTicket_names (hlib : lib.Faithful) {id t : Text} {g : Grant} {now : ℤ}
    {cs : List JwtClaim} {m n k l : ℕ}
    (hd : lib.decode transferTicketIssuer transferTicketAudience jwtSecretKey t now = some cs)
    (hr : readTicket cs m n k l = some (g,id)) : Names lib t g id := by
  rintro g' id' ⟨now',he⟩
  obtain ⟨hn,hres⟩ := ticketClaims_names g' id'
  have hc := hlib.claims (ticketParams g' id' now') t now cs hn hres he hd
  have huid := hc ⟨"uid".toList,decimal g'.userId⟩ (by simp [ticketParams,ticketClaims])
  have hcmd := hc ⟨"cmd".toList,decimal g'.cmdType⟩ (by simp [ticketParams,ticketClaims])
  have hpath := hc ⟨"path".toList,g'.fullPath⟩ (by simp [ticketParams,ticketClaims])
  have htid := hc ⟨"tid".toList,id'⟩ (by simp [ticketParams,ticketClaims])
  have hstart := hc ⟨"start".toList,decimal g'.rangeStart⟩ (by simp [ticketParams,ticketClaims])
  have hend := hc ⟨"end".toList,decimal g'.rangeEnd⟩ (by simp [ticketParams,ticketClaims])
  have hsip := hc ⟨"sip".toList,g'.sourceIp⟩ (by simp [ticketParams,ticketClaims])
  have hsport := hc ⟨"sport".toList,g'.sourcePort⟩ (by simp [ticketParams,ticketClaims])
  dsimp only at huid hcmd hpath htid hstart hend hsip hsport
  simp only [readTicket,copyStringClaim,huid,hcmd,hpath,htid,hstart,hend,hsip,hsport,
    Option.bind_eq_bind,Option.bind_some,Option.bind_eq_some_iff,bounded_eq_some] at hr
  obtain ⟨_,⟨rfl,_⟩,_,⟨rfl,_⟩,_,⟨rfl,_⟩,_,⟨rfl,_⟩,he⟩ := hr
  simp only [atoll_decimal,Option.some.injEq,Prod.mk.injEq] at he
  exact he

end Reading

section Transitions

variable {κ ι : Type} [DecidableEq κ] [DecidableEq ι] {lib : Library}
  {G : κ × ι → Grant → Prop} {Λ : κ × ι → TicketStage} {s s' : Cluster κ ι × (κ × ι → Option ℤ)} {a : κ × ι}

/-- The parts of the state the invariant speaks of are the same. -/
structure SameTickets (s s' : Cluster κ ι × (κ × ι → Option ℤ)) : Prop where
  clocks : s'.2 = s.2
  minted : s'.1.minted = s.1.minted
  drawn : s'.1.drawn = s.1.drawn
  tickets : ∀ k, (s'.1.nodes k).tickets = (s.1.nodes k).tickets
  sent : ∀ (a : κ × ι) p, Packet.ticket p ∈ ((s'.1.nodes a.1).conn a.2).sent → p.success = 1 →
    Packet.ticket p ∈ ((s.1.nodes a.1).conn a.2).sent

omit [DecidableEq κ] [DecidableEq ι] in
theorem ticketed_same (h : Ticketed lib G Λ s) (hs : SameTickets s s') : Ticketed lib G Λ s' where
  clocks := by rw [hs.clocks]; exact h.clocks
  fresh := by rw [hs.clocks]; exact h.fresh
  drawn := by rw [hs.drawn]; exact h.drawn
  apart := h.apart
  minted := by rw [hs.minted]; exact h.minted
  signed := h.signed
  distinct := fun k => by rw [hs.tickets]; exact h.distinct k
  table := fun k => by rw [hs.tickets]; exact h.table k
  decoded := h.decoded
  accepted := h.accepted
  told := fun b p hp h1 => h.told b p (hs.sent b p hp h1) h1

theorem token_update {ℓ : TicketStage} {x : Text × Grant × Text}
    (hkeep : (Λ a).token = none ∨ ℓ.token = (Λ a).token) (h : ∃ b, (Λ b).token = some x) :
    ∃ b, (update Λ a ℓ b).token = some x := by
  obtain ⟨b,hb⟩ := h
  refine ⟨b,?_⟩
  by_cases hba : b = a
  · subst hba
    rcases hkeep with hn | he
    · rw [hn] at hb
      cases hb
    · rw [update_self,he,hb]
  · rw [update_of_ne hba,hb]

theorem number_update {ℓ : TicketStage} (he : ℓ.number = (Λ a).number) (b : κ × ι) :
    (update Λ a ℓ b).number = (Λ b).number := by
  by_cases hba : b = a
  · subst hba
    rw [update_self,he]
  · rw [update_of_ne hba]

theorem minted_update (h : Ticketed lib G Λ s) {ℓ : TicketStage}
    (hkeep : (Λ a).token = none ∨ ℓ.token = (Λ a).token) :
    ∀ t ∈ s.1.minted, ∃ b id g, (update Λ a ℓ b).token = some (id,g,t) := by
  intro t ht
  obtain ⟨b,id,g,hb⟩ := h.minted t ht
  obtain ⟨b',hb'⟩ := token_update hkeep ⟨b,hb⟩
  exact ⟨b',id,g,hb'⟩

theorem decoded_update (h : Ticketed lib G Λ s) {ℓ : TicketStage}
    (hkeep : (Λ a).token = none ∨ ℓ.token = (Λ a).token)
    (hnew : ∀ now id g t, ℓ = .decoded now id g t → ∃ b, (Λ b).token = some (id,g,t)) :
    ∀ b now id g t, update Λ a ℓ b = .decoded now id g t →
      ∃ b', (update Λ a ℓ b').token = some (id,g,t) := by
  intro b now id g t hb
  refine token_update hkeep ?_
  by_cases hba : b = a
  · subst hba
    exact hnew now id g t (by simpa using hb)
  · exact h.decoded b now id g t (by rwa [update_of_ne hba] at hb)

theorem told_update (h : Ticketed lib G Λ s) {ℓ : TicketStage}
    (ha : ∀ now id g t, Λ a ≠ .entered now id g t) :
    ∀ b p, Packet.ticket p ∈ ((s.1.nodes b.1).conn b.2).sent → p.success = 1 →
      ∃ now id g, update Λ a ℓ b = .entered now id g p.ticket := by
  intro b p hp h1
  obtain ⟨now,id,g,hb⟩ := h.told b p hp h1
  have hba : b ≠ a := by
    rintro rfl
    exact ha _ _ _ _ hb
  exact ⟨now,id,g,by rw [update_of_ne hba,hb]⟩

open TicketStage in
theorem ticketed_time (h : Ticketed lib G Λ s) (ha : Λ a = .idle) (now : ℤ) :
    Ticketed lib G (update Λ a (.timed now)) (s.1,update s.2 a (some now)) := by
  constructor
  · grind [h.clocks,update_apply,clock]
  · grind [h.fresh,update_apply]
  · grind [h.drawn,update_apply,number]
  · grind [h.apart,update_apply,number]
  · exact minted_update h (.inl (by rw [ha]; rfl))
  · grind [h.signed,update_apply,token]
  · exact h.distinct
  · grind [h.table,update_apply]
  · exact decoded_update h (.inl (by rw [ha]; rfl)) (by simp)
  · grind [h.accepted,update_apply]
  · exact told_update h (by simp [ha])

open TicketStage in
/-- A number drawn fresh is the number of no other call. -/
theorem ticketed_draw (h : Ticketed lib G Λ s) {now : ℤ} (ha : Λ a = .timed now) {bs : List ℕ}
    (hl : bs.length = 16) (hb : ∀ b ∈ bs, b < 256) (hn : bs ∉ s.1.drawn) :
    Ticketed lib G (update Λ a (.numbered now (Hex.hexLower bs)))
      ({ s.1 with drawn := s.1.drawn ++ [bs] },s.2) := by
  have hnew : ∀ b id, (Λ b).number = some id → id ≠ Hex.hexLower bs := by
    rintro b _ hnum rfl
    obtain ⟨cs,hm,_,hc,he⟩ := h.drawn b _ hnum
    exact hn (Hex.hexLower_injective hc hb he ▸ hm)
  constructor
  · grind [h.clocks,update_apply,clock]
  · grind [h.fresh,update_apply]
  · intro b id hnum
    by_cases hba : b = a
    · subst hba
      obtain rfl : Hex.hexLower bs = id := by simpa [number] using hnum
      exact ⟨bs,by simp,hl,hb,rfl⟩
    · rw [update_of_ne hba] at hnum
      obtain ⟨cs,hm,hc⟩ := h.drawn b id hnum
      exact ⟨cs,by simp [hm],hc⟩
  · grind [h.apart,update_apply,number]
  · exact minted_update h (.inl (by rw [ha]; rfl))
  · grind [h.signed,update_apply,token]
  · exact h.distinct
  · grind [h.table,update_apply]
  · exact decoded_update h (.inl (by rw [ha]; rfl)) (by simp)
  · grind [h.accepted,update_apply]
  · exact told_update h (by simp [ha])

open TicketStage in
theorem ticketed_sign (h : Ticketed lib G Λ s) {now : ℤ} {id : Text} (ha : Λ a = .numbered now id)
    {g : Grant} {t : Text} (ht : SignedAs lib id g t ∧ G a g) :
    Ticketed lib G (update Λ a (.signed now id g t))
      ({ s.1 with minted := s.1.minted ++ [t] },s.2) := by
  have hnum := number_update (Λ := Λ) (a := a) (ℓ := .signed now id g t) (by rw [ha]; rfl)
  constructor
  · grind [h.clocks,update_apply,clock]
  · grind [h.fresh,update_apply]
  · exact fun b id' hb => h.drawn b id' ((hnum b).symm.trans hb)
  · exact fun b c id' hb hc => h.apart b c id' ((hnum b).symm.trans hb) ((hnum c).symm.trans hc)
  · intro t' ht'
    rcases List.mem_append.mp ht' with hm | hm
    · exact minted_update h (.inl (by rw [ha]; rfl)) t' hm
    · obtain rfl := List.mem_singleton.mp hm
      exact ⟨a,id,g,by rw [update_self]; rfl⟩
  · grind [h.signed,update_apply,token]
  · exact h.distinct
  · grind [h.table,update_apply]
  · exact decoded_update h (.inl (by rw [ha]; rfl)) (by simp)
  · grind [h.accepted,update_apply]
  · exact told_update h (by simp [ha])

open TicketStage in
theorem ticketed_decode (h : Ticketed lib G Λ s) {now : ℤ} (ha : Λ a = .timed now) {id : Text}
    {g : Grant} {t : Text} (ht : ∃ b, (Λ b).token = some (id,g,t)) :
    Ticketed lib G (update Λ a (.decoded now id g t)) s := by
  constructor
  · grind [h.clocks,update_apply,clock]
  · grind [h.fresh,update_apply]
  · grind [h.drawn,update_apply,number]
  · grind [h.apart,update_apply,number]
  · exact minted_update h (.inl (by rw [ha]; rfl))
  · grind [h.signed,update_apply,token]
  · exact h.distinct
  · grind [h.table,update_apply]
  · refine decoded_update h (.inl (by rw [ha]; rfl)) ?_
    rintro _ _ _ _ ⟨⟩
    exact ht
  · grind [h.accepted,update_apply]
  · exact told_update h (by simp [ha])

omit [DecidableEq ι] in
theorem ticketed_cleanup (h : Ticketed lib G Λ s) {k : κ} {t : ℤ}
    (hn : ∀ l, (s'.1.nodes l).tickets =
      if l = k then (s.1.nodes k).tickets.cleanupExpiredTickets t else (s.1.nodes l).tickets)
    (hc : s'.2 = s.2) (hm : s'.1.minted = s.1.minted) (hd : s'.1.drawn = s.1.drawn)
    (hsent : ∀ a : κ × ι, ((s'.1.nodes a.1).conn a.2).sent = ((s.1.nodes a.1).conn a.2).sent) :
    Ticketed lib G Λ s' where
  clocks := by rw [hc]; exact h.clocks
  fresh := by rw [hc]; exact h.fresh
  drawn := by rw [hd]; exact h.drawn
  apart := h.apart
  minted := by rw [hm]; exact h.minted
  signed := h.signed
  distinct := by
    intro l
    rw [hn]
    split
    · exact cleanup_distinct (h.distinct k) t
    · exact h.distinct l
  table := by
    intro l slot id e hact
    rw [hn] at hact
    split at hact
    · subst_vars
      exact h.table _ slot id e (active_cleanup.mp hact).1
    · exact h.table l slot id e hact
  decoded := h.decoded
  accepted := h.accepted
  told := fun b p hp h1 => h.told b p (by rwa [hsent] at hp) h1

theorem mem_write {t : TicketTable} {slot : ℕ} {n m : TransferTicketNode}
    (hm : m ∈ (t.write slot n).slots) : m ∈ t.slots ∨ m = n :=
  List.mem_or_eq_of_mem_set hm

omit [DecidableEq κ] [DecidableEq ι] in
/-- A number in a table belongs to the call that drew it. -/
theorem active_call (h : Ticketed lib G Λ s) {k : κ} {slot : ℕ} {id : Text} {e : ℤ}
    (hact : (s.1.nodes k).tickets.Active slot id e) {b : κ × ι}
    (hb : (Λ b).number = some id) :
    b.1 = k ∧ ∃ now g t, Λ b = .entered now id g t ∧ e = now+transferTicketExpireSeconds := by
  obtain ⟨⟨i,now,g,t,hi,he⟩,_⟩ := h.table k slot id e hact
  have hn : (Λ (k,i)).number = some id := by rw [hi]; rfl
  obtain rfl := h.apart b (k,i) id hb hn
  exact ⟨rfl,now,g,t,hi,he⟩

theorem ticketed_enter (h : Ticketed lib G Λ s) {now : ℤ} {id : Text} {g : Grant} {t : Text}
    {slot : ℕ} (ha : Λ a = .signed now id g t)
    (hslot : slot < ((s.1.nodes a.1).tickets.cleanupExpiredTickets now).slots.length)
    (hn : ∀ l, (s'.1.nodes l).tickets =
      if l = a.1 then ((s.1.nodes a.1).tickets.cleanupExpiredTickets now).write slot
        ⟨1,id,now+transferTicketExpireSeconds⟩ else (s.1.nodes l).tickets)
    (hc : s'.2 = s.2) (hm : s'.1.minted = s.1.minted) (hd : s'.1.drawn = s.1.drawn)
    (hsent : ∀ a : κ × ι, ((s'.1.nodes a.1).conn a.2).sent = ((s.1.nodes a.1).conn a.2).sent) :
    Ticketed lib G (update Λ a (.entered now id g t)) s' := by
  have hnum := number_update (Λ := Λ) (a := a) (ℓ := .entered now id g t) (by rw [ha]; rfl)
  have hself : (Λ a).number = some id := by rw [ha]; rfl
  have hne : ∀ b now' id' g' t', Λ b = .entered now' id' g' t' → b ≠ a := by
    rintro b now' id' g' t' hb rfl
    rw [ha] at hb
    cases hb
  have hfree : ∀ k l e, ¬ (s.1.nodes k).tickets.Active l id e := by
    intro k l e hact
    obtain ⟨_,now',g',t',he,_⟩ := active_call h hact hself
    exact hne a _ _ _ _ he rfl
  have hold : ∀ k l id' e, (s.1.nodes k).tickets.Active l id' e →
      (∃ i now' g' t', update Λ a (.entered now id g t) (k,i) = .entered now' id' g' t' ∧
        e = now'+transferTicketExpireSeconds) ∧
      ∀ b now' g' t', update Λ a (.entered now id g t) b ≠ .accepted now' id' g' t' := by
    intro k l id' e hact
    obtain ⟨⟨i,now',g',t',hi,he⟩,hacc⟩ := h.table k l id' e hact
    refine ⟨⟨i,now',g',t',by rw [update_of_ne (hne _ _ _ _ _ hi),hi],he⟩,?_⟩
    intro b now' g' t' hb
    by_cases hba : b = a
    · subst hba
      simp at hb
    · exact hacc b now' g' t' (by rwa [update_of_ne hba] at hb)
  constructor
  · rw [hc]
    have hclk := h.clocks a now (by rw [ha]; rfl)
    intro b now' hb
    by_cases hba : b = a
    · subst hba
      obtain rfl : now = now' := by simpa [TicketStage.clock] using hb
      exact hclk
    · exact h.clocks b now' (by rwa [update_of_ne hba] at hb)
  · rw [hc]
    intro b hb
    by_cases hba : b = a
    · subst hba
      simp at hb
    · exact h.fresh b (by rwa [update_of_ne hba] at hb)
  · rw [hd]
    exact fun b id' hb => h.drawn b id' ((hnum b).symm.trans hb)
  · exact fun b c id' hb hc => h.apart b c id' ((hnum b).symm.trans hb) ((hnum c).symm.trans hc)
  · rw [hm]
    exact minted_update h (.inr (by rw [ha]; rfl))
  · intro b id' g' t' hb
    by_cases hba : b = a
    · subst hba
      rw [update_self] at hb
      exact h.signed b id' g' t' (by rw [ha]; exact hb)
    · exact h.signed b id' g' t' (by rwa [update_of_ne hba] at hb)
  · intro l
    rw [hn]
    split
    · refine ⟨fun n hm => ?_,fun {k l id' e e'} hk hl => ?_⟩
      · rcases mem_write hm with hm | rfl
        · exact (cleanup_distinct (h.distinct a.1) now).flags n hm
        · exact .inr rfl
      · rw [active_write hslot] at hk hl
        split at hk <;> split at hl
        · subst_vars
          rfl
        · cases hk
          exact absurd (active_cleanup.mp hl).1 (hfree _ _ _)
        · cases hl
          exact absurd (active_cleanup.mp hk).1 (hfree _ _ _)
        · exact (cleanup_distinct (h.distinct a.1) now).single hk hl
    · exact h.distinct l
  · intro k l id' e hact
    rw [hn] at hact
    split at hact
    · rw [active_write hslot] at hact
      split at hact
      · cases hact
        subst_vars
        refine ⟨⟨a.2,now,g,t,update_self _ _ _,rfl⟩,fun b now' g' t' hb => ?_⟩
        by_cases hba : b = a
        · subst hba
          simp at hb
        · rw [update_of_ne hba] at hb
          obtain ⟨⟨i,now'',hi,_⟩,_⟩ := h.accepted b now' id g' t' hb
          exact hne _ _ _ _ _ hi (h.apart _ _ id (by rw [hi]; rfl) hself)
      · subst_vars
        exact hold _ l id' e (active_cleanup.mp hact).1
    · exact hold k l id' e hact
  · exact decoded_update h (.inr (by rw [ha]; rfl)) (by simp)
  · intro b now' id' g' t' hb
    by_cases hba : b = a
    · subst hba
      simp at hb
    · rw [update_of_ne hba] at hb
      obtain ⟨⟨i,now'',hi,hlt⟩,huniq⟩ := h.accepted b now' id' g' t' hb
      refine ⟨⟨i,now'',by rw [update_of_ne (hne _ _ _ _ _ hi),hi],hlt⟩,fun b' n2 g2 t2 hb' => ?_⟩
      by_cases hba' : b' = a
      · subst hba'
        simp at hb'
      · exact huniq b' n2 g2 t2 (by rwa [update_of_ne hba'] at hb')
  · intro b p hp h1
    rw [hsent] at hp
    exact told_update h (by simp [ha]) b p hp h1

theorem ticketed_accept (h : Ticketed lib G Λ s) {now : ℤ} {id : Text} {g : Grant} {t : Text}
    {slot : ℕ} {e : ℤ} (ha : Λ a = .decoded now id g t)
    (hact : ((s.1.nodes a.1).tickets.cleanupExpiredTickets now).Active slot id e)
    (hn : ∀ l, (s'.1.nodes l).tickets =
      if l = a.1 then ((s.1.nodes a.1).tickets.cleanupExpiredTickets now).write slot .zero
      else (s.1.nodes l).tickets)
    (hc : s'.2 = s.2) (hm : s'.1.minted = s.1.minted) (hd : s'.1.drawn = s.1.drawn)
    (hsent : ∀ a : κ × ι, ((s'.1.nodes a.1).conn a.2).sent = ((s.1.nodes a.1).conn a.2).sent) :
    Ticketed lib G (update Λ a (.accepted now id g t)) s' := by
  have hnum := number_update (Λ := Λ) (a := a) (ℓ := .accepted now id g t) (by rw [ha]; rfl)
  have hslot : slot < ((s.1.nodes a.1).tickets.cleanupExpiredTickets now).slots.length :=
    (List.getElem?_eq_some_iff.mp hact).1
  obtain ⟨hact0,hlt⟩ := active_cleanup.mp hact
  obtain ⟨c,hc'⟩ := h.decoded a now id g t ha
  have hcn := TicketStage.token_number hc'
  obtain ⟨hck,now',g',t',hce,he⟩ := active_call h hact0 hcn
  obtain ⟨rfl,rfl⟩ : g' = g ∧ t' = t := by simpa [hce,TicketStage.token] using hc'
  have hnone := (h.table a.1 slot id e hact0).2
  have hne : ∀ b now' id' g' t', Λ b = .entered now' id' g' t' → b ≠ a := by
    rintro b now' id' g' t' hb rfl
    rw [ha] at hb
    cases hb
  have hold : ∀ k l id' e', (s.1.nodes k).tickets.Active l id' e' → id' ≠ id →
      (∃ i now2 g2 t2, update Λ a (.accepted now id g' t') (k,i) = .entered now2 id' g2 t2 ∧
        e' = now2+transferTicketExpireSeconds) ∧
      ∀ b now2 g2 t2, update Λ a (.accepted now id g' t') b ≠ .accepted now2 id' g2 t2 := by
    intro k l id' e' hact' hid
    obtain ⟨⟨i,now2,g2,t2,hi,he'⟩,hacc⟩ := h.table k l id' e' hact'
    refine ⟨⟨i,now2,g2,t2,by rw [update_of_ne (hne _ _ _ _ _ hi),hi],he'⟩,?_⟩
    intro b now2 g2 t2 hb
    by_cases hba : b = a
    · subst hba
      rw [update_self] at hb
      cases hb
      exact hid rfl
    · exact hacc b now2 g2 t2 (by rwa [update_of_ne hba] at hb)
  constructor
  · rw [hc]
    have hclk := h.clocks a now (by rw [ha]; rfl)
    intro b now2 hb
    by_cases hba : b = a
    · subst hba
      obtain rfl : now = now2 := by simpa [TicketStage.clock] using hb
      exact hclk
    · exact h.clocks b now2 (by rwa [update_of_ne hba] at hb)
  · rw [hc]
    intro b hb
    by_cases hba : b = a
    · subst hba
      simp at hb
    · exact h.fresh b (by rwa [update_of_ne hba] at hb)
  · rw [hd]
    exact fun b id' hb => h.drawn b id' ((hnum b).symm.trans hb)
  · exact fun b c id' hb hc => h.apart b c id' ((hnum b).symm.trans hb) ((hnum c).symm.trans hc)
  · rw [hm]
    exact minted_update h (.inl (by rw [ha]; rfl))
  · intro b id' g2 t2 hb
    by_cases hba : b = a
    · subst hba
      simp [TicketStage.token] at hb
    · exact h.signed b id' g2 t2 (by rwa [update_of_ne hba] at hb)
  · intro l
    rw [hn]
    split
    · refine ⟨fun n hm => ?_,fun {k l id' e1 e2} hk hl => ?_⟩
      · rcases mem_write hm with hm | rfl
        · exact (cleanup_distinct (h.distinct a.1) now).flags n hm
        · exact .inl rfl
      · rw [active_write hslot] at hk hl
        split at hk <;> split at hl
        · subst_vars
          rfl
        · cases hk
        · cases hl
        · exact (cleanup_distinct (h.distinct a.1) now).single hk hl
    · exact h.distinct l
  · intro k l id' e' hact'
    rw [hn] at hact'
    split at hact'
    · rw [active_write hslot] at hact'
      split at hact'
      · cases hact'
      · rename_i hl
        subst_vars
        refine hold _ l id' e' (active_cleanup.mp hact').1 ?_
        rintro rfl
        exact hl ((cleanup_distinct (h.distinct a.1) now).single hact' hact)
    · rename_i hk
      refine hold k l id' e' hact' ?_
      rintro rfl
      exact hk ((active_call h hact' hcn).1.symm.trans hck)
  · exact decoded_update h (.inl (by rw [ha]; rfl)) (by simp)
  · intro b now2 id' g2 t2 hb
    by_cases hba : b = a
    · subst hba
      rw [update_self] at hb
      cases hb
      refine ⟨⟨c.2,now',?_,by omega⟩,fun b' n2 g2 t2 hb' => ?_⟩
      · rw [← hck] at *
        rw [update_of_ne (hne _ _ _ _ _ hce),hce]
      · by_contra hbb
        exact hnone b' n2 g2 t2 (by rwa [update_of_ne hbb] at hb')
    · rw [update_of_ne hba] at hb
      obtain ⟨⟨i,now3,hi,hlt'⟩,huniq⟩ := h.accepted b now2 id' g2 t2 hb
      refine ⟨⟨i,now3,by rw [update_of_ne (hne _ _ _ _ _ hi),hi],hlt'⟩,fun b' n3 g3 t3 hb' => ?_⟩
      by_cases hba' : b' = a
      · subst hba'
        rw [update_self] at hb'
        cases hb'
        exact absurd hb (hnone b now2 g2 t2)
      · exact huniq b' n3 g3 t3 (by rwa [update_of_ne hba'] at hb')
  · intro b p hp h1
    rw [hsent] at hp
    exact told_update h (by simp [ha]) b p hp h1

end Transitions

end WindCloud
