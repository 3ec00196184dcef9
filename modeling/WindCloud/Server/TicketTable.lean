import WindCloud.Common.Protocol

/-!
# The table of one-time tickets

The slots of `transfer_ticket.c` and the two sections run under its lock. The
table has a fixed number of slots; a section first frees the slots whose time
has come.
-/

set_option autoImplicit false

namespace WindCloud
open CString

def maxTransferTicketCount : ℕ := 1024
def transferTicketExpireSeconds : ℤ := 30

structure TransferTicketNode where
  active : ℕ
  ticketId : Text
  expireTime : ℤ
  deriving DecidableEq, Repr

def TransferTicketNode.zero : TransferTicketNode := ⟨0,[],0⟩

/-- The array `g_transfer_tickets`. -/
structure TicketTable where
  slots : List TransferTicketNode
  size : slots.length = maxTransferTicketCount

namespace TicketTable

def zero : TicketTable :=
  ⟨List.replicate maxTransferTicketCount .zero,List.length_replicate⟩

def write (t : TicketTable) (slot : ℕ) (n : TransferTicketNode) : TicketTable :=
  ⟨t.slots.set slot n,by rw [List.length_set]; exact t.size⟩

def cleanupExpiredTickets (now : ℤ) (t : TicketTable) : TicketTable :=
  ⟨t.slots.map fun n => if n.active = 1 ∧ n.expireTime ≤ now then .zero else n,
    by rw [List.length_map]; exact t.size⟩

def allocTicketSlot (t : TicketTable) : Option ℕ := t.slots.findIdx? fun n => n.active = 0

/-- The locked section of `issue_transfer_ticket`. -/
def register (now : ℤ) (ticketId : Text) (t : TicketTable) : Bool × TicketTable :=
  match (t.cleanupExpiredTickets now).allocTicketSlot with
  | none => (false,t.cleanupExpiredTickets now)
  | some slot =>
    (true,(t.cleanupExpiredTickets now).write slot
      ⟨1,ticketId,now+transferTicketExpireSeconds⟩)

/-- The locked section of `verify_and_consume_transfer_ticket`. -/
def consume (now : ℤ) (ticketId : Text) (t : TicketTable) : Bool × TicketTable :=
  match (t.cleanupExpiredTickets now).slots.findIdx?
      fun n => n.active = 1 ∧ n.ticketId = ticketId with
  | none => (false,t.cleanupExpiredTickets now)
  | some slot => (true,(t.cleanupExpiredTickets now).write slot .zero)

/-- The number `id` is entered in slot `k` until `expire`. -/
def Active (t : TicketTable) (k : ℕ) (id : Text) (expire : ℤ) : Prop :=
  t.slots[k]? = some ⟨1,id,expire⟩

/-- Slots are used or free, and no number is entered in two of them. -/
structure Distinct (t : TicketTable) : Prop where
  flags : ∀ n ∈ t.slots, n.active = 0 ∨ n.active = 1
  single : ∀ {k l id e e'}, t.Active k id e → t.Active l id e' → k = l

theorem zero_distinct : Distinct zero where
  flags := by
    intro n hn
    obtain rfl := List.eq_of_mem_replicate hn
    exact .inl rfl
  single := by
    intro k l id e e' hk _
    have hm : (⟨1,id,e⟩ : TransferTicketNode) ∈ zero.slots := List.mem_of_getElem? hk
    cases List.eq_of_mem_replicate hm

theorem active_cleanup {t : TicketTable} {now : ℤ} {k : ℕ} {id : Text} {e : ℤ} :
    (t.cleanupExpiredTickets now).Active k id e ↔ t.Active k id e ∧ now < e := by
  unfold Active cleanupExpiredTickets
  rw [List.getElem?_map]
  cases hn : t.slots[k]? with
  | none => simp
  | some n =>
    simp only [Option.map_some,Option.some.injEq]
    split
    · rename_i hx
      constructor
      · intro h
        cases h
      · rintro ⟨rfl,hlt⟩
        exact absurd hlt (Int.not_lt.mpr hx.2)
    · rename_i hx
      constructor
      · rintro rfl
        exact ⟨rfl,by simpa using hx⟩
      · exact fun h => h.1

theorem cleanup_distinct {t : TicketTable} (h : Distinct t) (now : ℤ) :
    Distinct (t.cleanupExpiredTickets now) where
  flags := by
    intro n hn
    obtain ⟨m,hm,rfl⟩ := List.mem_map.mp hn
    split
    · exact .inl rfl
    · exact h.flags m hm
  single := fun hk hl => h.single (active_cleanup.mp hk).1 (active_cleanup.mp hl).1

theorem active_write {t : TicketTable} {slot k : ℕ} {n : TransferTicketNode} {id : Text} {e : ℤ}
    (hs : slot < t.slots.length) :
    (t.write slot n).Active k id e ↔ if k = slot then n = ⟨1,id,e⟩ else t.Active k id e := by
  unfold Active write
  rw [List.getElem?_set]
  by_cases hk : slot = k
  · subst hk
    simp [hs]
  · simp [hk,Ne.symm hk]

theorem register_full {t : TicketTable} (h : Distinct t) {now : ℤ} {id : Text}
    (hr : (t.register now id).1 = false) :
    ∀ n ∈ t.slots, n.active = 1 ∧ now < n.expireTime := by
  have hn : (t.cleanupExpiredTickets now).allocTicketSlot = none := by
    unfold register at hr
    split at hr
    · assumption
    · cases hr
  rw [allocTicketSlot,List.findIdx?_eq_none_iff] at hn
  intro n hm
  have hc := hn _ (List.mem_map_of_mem hm)
  split at hc
  · cases hc
  · rename_i hx
    have ha : n.active ≠ 0 := by simpa using hc
    have h1 : n.active = 1 := (h.flags n hm).resolve_left ha
    exact ⟨h1,by simpa [h1] using hx⟩

theorem register_cases (t : TicketTable) (now : ℤ) (id : Text) :
    t.register now id = (false,t.cleanupExpiredTickets now) ∨
      ∃ slot, slot < (t.cleanupExpiredTickets now).slots.length ∧
        (∀ id' e, ¬ (t.cleanupExpiredTickets now).Active slot id' e) ∧
        t.register now id = (true,(t.cleanupExpiredTickets now).write slot
          ⟨1,id,now+transferTicketExpireSeconds⟩) := by
  unfold register
  cases hs : (t.cleanupExpiredTickets now).allocTicketSlot with
  | none => exact .inl rfl
  | some slot =>
    obtain ⟨hlt,hfree,_⟩ := List.findIdx?_eq_some_iff_getElem.mp hs
    refine .inr ⟨slot,hlt,fun id' e ha => ?_,rfl⟩
    rw [Active,List.getElem?_eq_getElem hlt] at ha
    rw [Option.some.inj ha] at hfree
    simp at hfree

theorem consume_cases (t : TicketTable) (now : ℤ) (id : Text) :
    t.consume now id = (false,t.cleanupExpiredTickets now) ∨
      ∃ slot e, (t.cleanupExpiredTickets now).Active slot id e ∧
        t.consume now id = (true,(t.cleanupExpiredTickets now).write slot .zero) := by
  unfold consume
  split
  · exact .inl rfl
  · rename_i slot hs
    obtain ⟨hlt,hfound,_⟩ := List.findIdx?_eq_some_iff_getElem.mp hs
    have hn : (t.cleanupExpiredTickets now).slots[slot].active = 1 ∧
        (t.cleanupExpiredTickets now).slots[slot].ticketId = id := by simpa using hfound
    refine .inr ⟨slot,(t.cleanupExpiredTickets now).slots[slot].expireTime,?_,rfl⟩
    rw [Active,List.getElem?_eq_getElem hlt,← hn.1,← hn.2]

end TicketTable

end WindCloud
