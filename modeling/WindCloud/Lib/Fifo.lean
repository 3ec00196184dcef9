import Mathlib.Logic.Function.Basic
import Mathlib.Data.List.Basic

/-!
# Queues of linked nodes in memory

A queue is entered at its end and left at its head. `Holds h q vs` says that the
nodes from the head on carry `vs`, in this order.
-/

set_option autoImplicit false

namespace Fifo
open Function

variable {α : Type}

structure Node (α : Type) where
  val : α
  next : Option ℕ
  deriving DecidableEq, Repr

abbrev Heap (α : Type) := ℕ → Option (Node α)

structure Queue where
  head : Option ℕ
  last : Option ℕ
  size : ℕ
  deriving DecidableEq, Repr

def empty : Queue := ⟨none,none,0⟩

def enter (h : Heap α) (q : Queue) (p : ℕ) (v : α) : Option (Heap α × Queue) := do
  let h₁ := update h p (some ⟨v,none⟩)
  if q.size = 0 then some (h₁,⟨some p,some p,q.size+1⟩)
  else do
    let e ← q.last
    let n ← h₁ e
    some (update h₁ e (some { n with next := some p }),{ q with last := some p, size := q.size+1 })

def leave (h : Heap α) (q : Queue) : Option (Option α × Heap α × Queue) := do
  if q.size = 0 then some (none,h,q)
  else do
    let p ← q.head
    let n ← h p
    some (some n.val,update h p none,
      ⟨n.next,if q.size = 1 then none else q.last,q.size-1⟩)

def Chain (h : Heap α) : Option ℕ → List ℕ → List α → Prop
  | head, [], vs => head = none ∧ vs = []
  | head, p::ps, vs => head = some p ∧ ∃ n rest, h p = some n ∧ vs = n.val::rest ∧
      Chain h n.next ps rest

structure Linked (h : Heap α) (q : Queue) (ps : List ℕ) (vs : List α) : Prop where
  chain : Chain h q.head ps vs
  last : q.last = ps.getLast?
  size : q.size = ps.length
  nodup : ps.Nodup

def Holds (h : Heap α) (q : Queue) (vs : List α) : Prop := ∃ ps, Linked h q ps vs

theorem chain_length {h : Heap α} {head : Option ℕ} {ps : List ℕ} {vs : List α}
    (hc : Chain h head ps vs) : vs.length = ps.length := by
  induction ps generalizing head vs with
  | nil => rw [hc.2,List.length_nil,List.length_nil]
  | cons p ps ih =>
    obtain ⟨_,n,rest,_,rfl,hrest⟩ := hc
    rw [List.length_cons,List.length_cons,ih hrest]

theorem chain_node {h : Heap α} {head : Option ℕ} {ps : List ℕ} {vs : List α}
    (hc : Chain h head ps vs) {p : ℕ} (hp : p ∈ ps) : ∃ n, h p = some n := by
  induction ps generalizing head vs with
  | nil => simp at hp
  | cons q ps ih =>
    obtain ⟨_,n,rest,hn,_,hrest⟩ := hc
    rcases List.mem_cons.mp hp with rfl | hp
    · exact ⟨n,hn⟩
    · exact ih hrest hp

theorem chain_update {h : Heap α} {head : Option ℕ} {ps : List ℕ} {vs : List α} {p : ℕ}
    {n : Option (Node α)} (hc : Chain h head ps vs) (hp : p ∉ ps) :
    Chain (update h p n) head ps vs := by
  induction ps generalizing head vs with
  | nil => exact hc
  | cons q ps ih =>
    obtain ⟨hhead,m,rest,hm,hvs,hrest⟩ := hc
    obtain ⟨hpq,hps⟩ : p ≠ q ∧ p ∉ ps := by simpa using hp
    exact ⟨hhead,m,rest,by rw [update_of_ne hpq.symm,hm],hvs,ih hrest hps⟩

theorem chain_snoc {h : Heap α} {head : Option ℕ} {ps : List ℕ} {vs : List α} {e p : ℕ} {v : α}
    {n : Node α} (hc : Chain h head (ps++[e]) vs) (he : h e = some n) (hnd : (ps++[e]).Nodup)
    (hp : p ∉ ps++[e]) (hnew : h p = some ⟨v,none⟩) :
    Chain (update h e (some { n with next := some p })) head (ps++[e]++[p]) (vs++[v]) := by
  have hep : e ≠ p := fun h => hp (by simp [h])
  induction ps generalizing head vs with
  | nil =>
    obtain ⟨rfl,m,rest,hm,rfl,hnone,rfl⟩ := hc
    obtain rfl : n = m := Option.some.inj (he.symm.trans hm)
    refine ⟨rfl,{ n with next := some p },[v],update_self _ _ _,rfl,rfl,⟨v,none⟩,[],?_,rfl,rfl,rfl⟩
    rw [update_of_ne hep.symm,hnew]
  | cons q ps ih =>
    obtain ⟨rfl,m,rest,hm,rfl,hrest⟩ := hc
    obtain ⟨hq,hnd⟩ := List.nodup_cons.mp hnd
    have hqe : q ≠ e := fun h => hq (by simp [h])
    refine ⟨rfl,m,rest++[v],by rw [update_of_ne hqe,hm],rfl,ih hrest hnd ?_⟩
    exact fun h => hp (List.mem_cons_of_mem q h)

theorem holds_empty (h : Heap α) : Holds h empty [] :=
  ⟨[],⟨rfl,rfl⟩,rfl,rfl,List.nodup_nil⟩

theorem holds_size {h : Heap α} {q : Queue} {vs : List α} (hq : Holds h q vs) :
    q.size = vs.length := by
  obtain ⟨ps,hl⟩ := hq
  rw [hl.size,chain_length hl.chain]

theorem enter_holds {h : Heap α} {q : Queue} {vs : List α} (hq : Holds h q vs) {p : ℕ}
    (hp : h p = none) (v : α) :
    ∃ h' q', enter h q p v = some (h',q') ∧ Holds h' q' (vs++[v]) := by
  obtain ⟨ps,hl⟩ := hq
  have hout : p ∉ ps := by
    intro hin
    obtain ⟨n,hn⟩ := chain_node hl.chain hin
    rw [hp] at hn
    cases hn
  have hchain := chain_update (n := some ⟨v,none⟩) hl.chain hout
  rcases List.eq_nil_or_concat ps with rfl | ⟨qs,e,rfl⟩
  · obtain rfl : vs = [] := hl.chain.2
    have hsize : q.size = 0 := hl.size
    refine ⟨_,_,by rw [enter,if_pos hsize],[p],⟨rfl,_,[],update_self _ _ _,rfl,rfl,rfl⟩,rfl,?_,?_⟩
    · rw [hsize]
      rfl
    · simp
  · rw [List.concat_eq_append] at *
    have hsize : q.size ≠ 0 := by
      rw [hl.size]
      simp
    have hlast : q.last = some e := by simp [hl.last]
    obtain ⟨n,hn⟩ := chain_node hchain (p := e) (by simp)
    refine ⟨_,{ q with last := some p, size := q.size+1 },
      by simp only [enter,if_neg hsize,hlast,hn,Option.bind_eq_bind,Option.bind_some],qs++[e]++[p],
      chain_snoc hchain hn hl.nodup hout (update_self _ _ _),?_,?_,?_⟩
    · simp
    · rw [hl.size]
      simp
    · exact List.nodup_append.mpr ⟨hl.nodup,by simp,fun a ha b hb he =>
        hout (by rw [← List.mem_singleton.mp hb,← he]; exact ha)⟩

theorem leave_holds {h : Heap α} {q : Queue} {v : α} {vs : List α} (hq : Holds h q (v::vs)) :
    ∃ h' q', leave h q = some (some v,h',q') ∧ Holds h' q' vs := by
  obtain ⟨ps,hl⟩ := hq
  have hlen := chain_length hl.chain
  rcases ps with _ | ⟨p,ps⟩
  · simp at hlen
  · obtain ⟨hhead,n,rest,hn,he,hrest⟩ := hl.chain
    obtain ⟨rfl,rfl⟩ := List.cons.inj he
    obtain ⟨hout,hnd⟩ := List.nodup_cons.mp hl.nodup
    have hsize : q.size ≠ 0 := by
      rw [hl.size]
      simp
    refine ⟨update h p none,⟨n.next,if q.size = 1 then none else q.last,q.size-1⟩,
      by simp only [leave,if_neg hsize,hhead,hn,Option.bind_eq_bind,Option.bind_some],
      ps,chain_update hrest hout,?_,?_,hnd⟩
    · rcases ps with _ | ⟨r,ps⟩
      · simp [hl.size]
      · simp [hl.size,hl.last,List.getLast?_cons]
    · rw [hl.size]
      simp

end Fifo
