import Mathlib.Logic.Function.Basic
import Mathlib.Data.List.Basic

/-!
# Doubly linked lists in memory

Cells at addresses, each with the addresses of its neighbours. A segment is a
run of cells linked both ways, between a cell before it and a cell after it.
-/

set_option autoImplicit false

namespace Links
open Function

variable {α : Type}

structure Cell (α : Type) where
  prev : Option ℕ
  next : Option ℕ
  val : α
  deriving DecidableEq, Repr

abbrev Heap (α : Type) := ℕ → Option (Cell α)

/-- A write through the address `p`, which has to be that of a cell. -/
def modify (h : Heap α) (p : ℕ) (f : Cell α → Cell α) : Option (Heap α) :=
  (h p).map fun c => update h p (some (f c))

def setNext (next : Option ℕ) (c : Cell α) : Cell α := { c with next := next }

def setPrev (prev : Option ℕ) (c : Cell α) : Cell α := { c with prev := prev }

def front (next : Option ℕ) (c : Cell α) : Cell α := { c with prev := none, next := next }

/-- The cells `ps` in their order, behind `prev` and before `next`. -/
def Seg (h : Heap α) : Option ℕ → List ℕ → Option ℕ → Prop
  | _, [], _ => True
  | prev, p::ps, next =>
    (∃ c, h p = some c ∧ c.prev = prev ∧ c.next = ps.head?.or next) ∧ Seg h (some p) ps next

theorem seg_cell {h : Heap α} {prev next : Option ℕ} {ps : List ℕ} (hs : Seg h prev ps next)
    {p : ℕ} (hp : p ∈ ps) : ∃ c, h p = some c := by
  induction ps generalizing prev with
  | nil => simp at hp
  | cons q ps ih =>
    obtain ⟨⟨c,hc,_⟩,hs⟩ := hs
    rcases List.mem_cons.mp hp with rfl | hp
    · exact ⟨c,hc⟩
    · exact ih hs hp

theorem seg_append {h : Heap α} {prev next : Option ℕ} (ps qs : List ℕ) :
    Seg h prev (ps++qs) next ↔
      Seg h prev ps (qs.head?.or next) ∧ Seg h (ps.getLast?.or prev) qs next := by
  induction ps generalizing prev with
  | nil => simp [Seg]
  | cons p ps ih =>
    have hhead : (ps++qs).head?.or next = ps.head?.or (qs.head?.or next) := by
      cases ps <;> simp
    have hlast : (p::ps).getLast?.or prev = ps.getLast?.or (some p) := by
      cases ps <;> simp [List.getLast?_cons]
    rw [List.cons_append,Seg,Seg,ih,hhead,hlast,and_assoc]

theorem seg_frame {h h' : Heap α} {prev next : Option ℕ} {ps : List ℕ}
    (he : ∀ p ∈ ps, h' p = h p) (hs : Seg h prev ps next) : Seg h' prev ps next := by
  induction ps generalizing prev with
  | nil => trivial
  | cons p ps ih =>
    obtain ⟨⟨c,hc,hcell⟩,hs⟩ := hs
    exact ⟨⟨c,(he p (by simp)).trans hc,hcell⟩,ih (fun q hq => he q (by simp [hq])) hs⟩

theorem seg_update {h : Heap α} {prev next : Option ℕ} {ps : List ℕ} {p : ℕ}
    {c : Option (Cell α)} (hp : p ∉ ps) (hs : Seg h prev ps next) :
    Seg (update h p c) prev ps next := by
  refine seg_frame (fun q hq => ?_) hs
  have hne : q ≠ p := fun he => hp (by rwa [← he])
  exact update_of_ne hne _ _

section Writes

variable {h h' : Heap α} {p : ℕ} {f : Cell α → Cell α}

theorem modify_cell {c : Cell α} (f : Cell α → Cell α) (hc : h p = some c) :
    modify h p f = some (update h p (some (f c))) := by
  rw [modify,hc,Option.map_some]

theorem modify_other (hm : modify h p f = some h') {q : ℕ} (hq : q ≠ p) : h' q = h q := by
  obtain ⟨c,_,rfl⟩ := Option.map_eq_some_iff.mp hm
  exact update_of_ne hq _ _

theorem modify_val (hm : modify h p f = some h') (hf : ∀ c, (f c).val = c.val) (q : ℕ) :
    (h' q).map Cell.val = (h q).map Cell.val := by
  obtain ⟨c,hc,rfl⟩ := Option.map_eq_some_iff.mp hm
  by_cases hq : q = p
  · subst hq
    rw [update_self,hc,Option.map_some,Option.map_some,hf]
  · rw [update_of_ne hq]

theorem seg_modify {prev next : Option ℕ} {ps : List ℕ} (hm : modify h p f = some h')
    (hp : p ∉ ps) (hs : Seg h prev ps next) : Seg h' prev ps next :=
  seg_frame (fun q hq => modify_other hm fun he => hp (by rwa [← he])) hs

theorem seg_head {prev prev' next : Option ℕ} {ps : List ℕ}
    (hm : modify h p (setPrev prev') = some h') (hp : p ∉ ps) (hs : Seg h prev (p::ps) next) :
    Seg h' prev' (p::ps) next := by
  obtain ⟨⟨d,hd,_,hnext⟩,htail⟩ := hs
  refine ⟨⟨setPrev prev' d,?_,rfl,hnext⟩,seg_modify hm hp htail⟩
  obtain rfl : update h p (some (setPrev prev' d)) = h' :=
    Option.some.inj ((modify_cell _ hd).symm.trans hm)
  exact update_self _ _ _

theorem seg_last {prev next next' : Option ℕ} {ps : List ℕ}
    (hm : modify h p (setNext next') = some h') (hp : p ∉ ps) (hs : Seg h prev (ps++[p]) next) :
    Seg h' prev (ps++[p]) next' := by
  obtain ⟨hfront,⟨d,hd,hprev,_⟩,_⟩ := (seg_append ps [p]).mp hs
  rw [seg_append]
  refine ⟨seg_modify hm hp (by simpa using hfront),⟨setNext next' d,?_,hprev,by simp [setNext]⟩,
    trivial⟩
  obtain rfl : update h p (some (setNext next' d)) = h' :=
    Option.some.inj ((modify_cell _ hd).symm.trans hm)
  exact update_self _ _ _

end Writes

section Operations

variable {h : Heap α} {p : ℕ}

/-- The cell `p` is put before the list that starts at `head`. -/
def push (h : Heap α) (head : Option ℕ) (p : ℕ) : Option (Heap α) := do
  let h₁ ← modify h p (front head)
  match head with
  | none => some h₁
  | some q => modify h₁ q (setPrev (some p))

theorem push_seg {ps : List ℕ} {c : Cell α} (hc : h p = some c) (hs : Seg h none ps none)
    (hnd : (p::ps).Nodup) :
    ∃ h', push h ps.head? p = some h' ∧ Seg h' none (p::ps) none ∧
      (∀ q, (h' q).map Cell.val = (h q).map Cell.val) ∧ ∀ q, q ∉ p::ps → h' q = h q := by
  obtain ⟨hp,hps⟩ := List.nodup_cons.mp hnd
  have hpush := modify_cell (front ps.head?) hc
  have hs₁ := seg_modify hpush hp hs
  have hval := modify_val hpush fun _ => rfl
  cases ps with
  | nil =>
    refine ⟨_,by rw [push,hpush]; rfl,⟨⟨_,update_self _ _ _,rfl,rfl⟩,trivial⟩,hval,?_⟩
    intro q hq
    exact modify_other hpush (by simpa using hq)
  | cons q ps =>
    have hqp : p ≠ q := fun he => hp (by simp [he])
    obtain ⟨d,hd⟩ := seg_cell hs₁ (List.mem_cons_self)
    have hlink := modify_cell (setPrev (some p)) hd
    refine ⟨_,by rw [push,hpush]; exact hlink,⟨⟨front (some q) c,?_,rfl,rfl⟩,
      seg_head hlink (List.nodup_cons.mp hps).1 hs₁⟩,?_,?_⟩
    · rw [modify_other hlink hqp]
      exact update_self _ _ _
    · intro r
      rw [modify_val hlink fun _ => rfl,hval]
    · intro r hr
      obtain ⟨hrp,hrq,_⟩ : r ≠ p ∧ r ≠ q ∧ r ∉ ps := by simpa using hr
      rw [modify_other hlink hrq,modify_other hpush hrp]

def modifyAt (h : Heap α) (p : Option ℕ) (f : Cell α → Cell α) : Option (Heap α) :=
  match p with
  | none => some h
  | some p => modify h p f

/-- The cell `p` is taken out of its list; the result is the cell as it was. -/
def unlink (h : Heap α) (p : ℕ) : Option (Cell α × Heap α) := do
  let c ← h p
  let h₁ ← modifyAt h c.prev (setNext c.next)
  let h₂ ← modifyAt h₁ c.next (setPrev c.prev)
  let h₃ ← modify h₂ p (front none)
  some (c,h₃)

theorem modifyAt_other {h' : Heap α} {a : Option ℕ} {f : Cell α → Cell α}
    (hm : modifyAt h a f = some h') {q : ℕ} (hq : a ≠ some q) : h' q = h q := by
  cases a with
  | none => rw [Option.some.inj hm]
  | some p => exact modify_other hm fun he => hq (by rw [he])

theorem modifyAt_val {h' : Heap α} {a : Option ℕ} {f : Cell α → Cell α}
    (hm : modifyAt h a f = some h') (hf : ∀ c, (f c).val = c.val) (q : ℕ) :
    (h' q).map Cell.val = (h q).map Cell.val := by
  cases a with
  | none => rw [Option.some.inj hm]
  | some p => exact modify_val hm hf q

theorem seg_before {prev next : Option ℕ} (next' : Option ℕ) {ps : List ℕ} (hnd : ps.Nodup)
    (hs : Seg h prev ps next) :
    ∃ h', modifyAt h ps.getLast? (setNext next') = some h' ∧ Seg h' prev ps next' := by
  rcases List.eq_nil_or_concat ps with rfl | ⟨qs,q,rfl⟩
  · exact ⟨h,rfl,trivial⟩
  · rw [List.concat_eq_append] at *
    obtain ⟨c,hc⟩ := seg_cell hs (p := q) (by simp)
    have hm := modify_cell (setNext next') hc
    have hq : q ∉ qs := by
      intro hq
      have hd := List.nodup_append.mp hnd
      exact hd.2.2 q hq q (by simp) rfl
    exact ⟨_,by simpa [modifyAt] using hm,seg_last hm hq hs⟩

theorem seg_after {prev next : Option ℕ} (prev' : Option ℕ) {ps : List ℕ} (hnd : ps.Nodup)
    (hs : Seg h prev ps next) :
    ∃ h', modifyAt h ps.head? (setPrev prev') = some h' ∧ Seg h' prev' ps next := by
  cases ps with
  | nil => exact ⟨h,rfl,trivial⟩
  | cons q qs =>
    obtain ⟨c,hc⟩ := seg_cell hs (p := q) (by simp)
    have hm := modify_cell (setPrev prev') hc
    exact ⟨_,hm,seg_head hm (List.nodup_cons.mp hnd).1 hs⟩

theorem unlink_seg {ps qs : List ℕ} (hs : Seg h none (ps++p::qs) none)
    (hnd : (ps++p::qs).Nodup) :
    ∃ c h', unlink h p = some (c,h') ∧ h p = some c ∧ c.prev = ps.getLast? ∧
      c.next = qs.head? ∧ Seg h' none (ps++qs) none ∧
      (∀ q, (h' q).map Cell.val = (h q).map Cell.val) ∧ ∀ q, q ∉ ps++p::qs → h' q = h q := by
  obtain ⟨hps,⟨c,hc,hprev,hnext⟩,hqs⟩ := (seg_append ps (p::qs)).mp hs
  rw [Option.or_none] at hprev hnext
  obtain ⟨hndps,hndqs,hdis⟩ := List.nodup_append.mp hnd
  obtain ⟨hpqs,hndqs⟩ := List.nodup_cons.mp hndqs
  have hpps : p ∉ ps := fun hp => hdis p hp p (by simp) rfl
  have hlast : ∀ q ∈ ps.getLast?, q ∈ ps := fun q hq => List.mem_of_getLast? hq
  have hhead : ∀ q ∈ qs.head?, q ∈ qs := fun q hq => List.mem_of_head? hq
  obtain ⟨h₁,hm₁,hps₁⟩ := seg_before qs.head? hndps hps
  have hqs₁ : Seg h₁ (some p) qs none := by
    refine seg_frame (fun q hq => modifyAt_other hm₁ fun he => ?_) hqs
    exact hdis q (hlast q he) q (by simp [hq]) rfl
  obtain ⟨h₂,hm₂,hqs₂⟩ := seg_after ps.getLast? hndqs hqs₁
  have hps₂ : Seg h₂ none ps qs.head? := by
    refine seg_frame (fun q hq => modifyAt_other hm₂ fun he => ?_) hps₁
    exact hdis q hq q (by simp [hhead q he]) rfl
  have hc₂ : h₂ p = some c := by
    rw [modifyAt_other hm₂ fun he => hpqs (hhead p he),
      modifyAt_other hm₁ fun he => hpps (hlast p he),hc]
  have hm₃ := modify_cell (front none) hc₂
  refine ⟨c,update h₂ p (some (front none c)),?_,hc,hprev,hnext,?_,?_,?_⟩
  · simp only [unlink,hc,Option.bind_eq_bind,Option.bind_some,hprev,hnext,hm₁,hm₂,hm₃]
  · refine (seg_append ps qs).mpr ⟨seg_modify hm₃ hpps (by simpa using hps₂),?_⟩
    exact seg_modify hm₃ hpqs (by simpa using hqs₂)
  · intro q
    rw [modify_val hm₃ fun _ => rfl,modifyAt_val hm₂ fun _ => rfl,modifyAt_val hm₁ fun _ => rfl]
  · intro q hq
    obtain ⟨hqps,hqp,hqqs⟩ : q ∉ ps ∧ q ≠ p ∧ q ∉ qs := by simpa using hq
    rw [modify_other hm₃ hqp,modifyAt_other hm₂ fun he => hqqs (hhead q he),
      modifyAt_other hm₁ fun he => hqps (hlast q he)]

end Operations

section Tables

variable {h : Heap α} {heads : ℕ → Option ℕ} {L : ℕ → List ℕ} {n : ℕ}

/-- The lists `L k`, for `k < n`, start at `heads k` and share no cell. -/
structure Table (heads : ℕ → Option ℕ) (h : Heap α) (n : ℕ) (L : ℕ → List ℕ) : Prop where
  head : ∀ k < n, heads k = (L k).head?
  seg : ∀ k < n, Seg h none (L k) none
  nodup : ∀ k < n, (L k).Nodup
  apart : ∀ j < n, ∀ k < n, ∀ p ∈ L j, p ∈ L k → j = k

theorem table_cell (ht : Table heads h n L) {k p : ℕ} (hk : k < n) (hp : p ∈ L k) :
    ∃ c, h p = some c :=
  seg_cell (ht.seg k hk) hp

theorem table_update (ht : Table heads h n L) {p : ℕ} {c : Option (Cell α)}
    (hp : ∀ k < n, p ∉ L k) : Table heads (update h p c) n L where
  head := ht.head
  seg k hk := seg_update (hp k hk) (ht.seg k hk)
  nodup := ht.nodup
  apart := ht.apart

theorem table_push (ht : Table heads h n L) {k p : ℕ} {c : Cell α} (hk : k < n)
    (hc : h p = some c) (hp : ∀ j < n, p ∉ L j) :
    ∃ h', push h (heads k) p = some h' ∧
      Table (update heads k (some p)) h' n (update L k (p::L k)) ∧
      ∀ q, (h' q).map Cell.val = (h q).map Cell.val := by
  have hnd : (p::L k).Nodup := List.nodup_cons.mpr ⟨hp k hk,ht.nodup k hk⟩
  obtain ⟨h',hpush,hseg,hval,hframe⟩ := push_seg hc (ht.seg k hk) hnd
  rw [← ht.head k hk] at hpush
  refine ⟨h',hpush,⟨fun j hj => ?_,fun j hj => ?_,fun j hj => ?_,fun j hj i hi q hq hq' => ?_⟩,hval⟩
  · by_cases hjk : j = k
    · subst hjk
      simp
    · simpa [hjk] using ht.head j hj
  · by_cases hjk : j = k
    · subst hjk
      simpa using hseg
    · rw [update_of_ne hjk]
      refine seg_frame (fun q hq => hframe q fun hin => ?_) (ht.seg j hj)
      rcases List.mem_cons.mp hin with rfl | hin
      · exact hp j hj hq
      · exact hjk (ht.apart j hj k hk q hq hin)
  · by_cases hjk : j = k
    · subst hjk
      simpa using hnd
    · simpa [hjk] using ht.nodup j hj
  · by_cases hjk : j = k
    · by_cases hik : i = k
      · rw [hjk,hik]
      · subst hjk
        rw [update_self] at hq
        rw [update_of_ne hik] at hq'
        rcases List.mem_cons.mp hq with rfl | hq
        · exact absurd hq' (hp i hi)
        · exact ht.apart j hj i hi q hq hq'
    · rw [update_of_ne hjk] at hq
      by_cases hik : i = k
      · subst hik
        rw [update_self] at hq'
        rcases List.mem_cons.mp hq' with rfl | hq'
        · exact absurd hq (hp j hj)
        · exact ht.apart j hj i hi q hq hq'
      · rw [update_of_ne hik] at hq'
        exact ht.apart j hj i hi q hq hq'

theorem table_unlink (ht : Table heads h n L) {k p : ℕ} {ps qs : List ℕ} (hk : k < n)
    (hL : L k = ps++p::qs) :
    ∃ c h', unlink h p = some (c,h') ∧ h p = some c ∧ c.prev = ps.getLast? ∧
      c.next = qs.head? ∧
      Table (if c.prev = none then update heads k c.next else heads) h' n
        (update L k (ps++qs)) ∧
      ∀ q, (h' q).map Cell.val = (h q).map Cell.val := by
  have hseg := ht.seg k hk
  have hnd := ht.nodup k hk
  have hhead := ht.head k hk
  rw [hL] at hseg hnd hhead
  obtain ⟨c,h',hun,hc,hprev,hnext,hseg',hval,hframe⟩ := unlink_seg hseg hnd
  have hsub : List.Sublist (ps++qs) (L k) := by
    rw [hL]
    exact (List.Sublist.refl ps).append (List.sublist_cons_self p qs)
  have hmem : ∀ j, ∀ q ∈ update L k (ps++qs) j, q ∈ L j := by
    intro j q hq
    by_cases hjk : j = k
    · subst hjk
      rw [update_self] at hq
      exact hsub.subset hq
    · rwa [update_of_ne hjk] at hq
  refine ⟨c,h',hun,hc,hprev,hnext,⟨fun j hj => ?_,fun j hj => ?_,fun j hj => ?_,
    fun j hj i hi q hq hq' => ht.apart j hj i hi q (hmem j q hq) (hmem i q hq')⟩,hval⟩
  · rw [hprev]
    by_cases hjk : j = k
    · subst hjk
      rcases ps with _ | ⟨r,ps⟩
      · simp [hnext]
      · simpa [List.getLast?_cons] using hhead
    · split
      · simpa [hjk] using ht.head j hj
      · simpa [hjk] using ht.head j hj
  · by_cases hjk : j = k
    · subst hjk
      simpa using hseg'
    · rw [update_of_ne hjk]
      refine seg_frame (fun q hq => hframe q fun hin => ?_) (ht.seg j hj)
      exact hjk (ht.apart j hj k hk q hq (by rw [hL]; exact hin))
  · by_cases hjk : j = k
    · subst hjk
      simpa using (ht.nodup j hj).sublist hsub
    · simpa [hjk] using ht.nodup j hj

end Tables

end Links
