import Mathlib.Data.List.Nodup
import Mathlib.Tactic.Common

/-!
# Rows with unique keys

A table is a list of rows. A key is unique when no two rows share its value;
rows are numbered below a counter when their number is unique and less than it.
-/

set_option autoImplicit false

namespace Rows

variable {α κ : Type}

def Unique (key : α → κ) (rows : List α) : Prop := (rows.map key).Nodup

theorem unique_nil (key : α → κ) : Unique key [] := List.nodup_nil

theorem unique_append {key : α → κ} {rows : List α} {r : α} (h : Unique key rows)
    (hr : ∀ x ∈ rows, key x ≠ key r) : Unique key (rows ++ [r]) := by
  unfold Unique
  rw [List.map_append]
  refine List.nodup_append.mpr ⟨h,List.nodup_singleton _,?_⟩
  intro a ha b hb
  obtain ⟨x,hx,rfl⟩ := List.mem_map.mp ha
  obtain rfl : b = key r := by simpa using hb
  exact hr x hx

theorem unique_filter {key : α → κ} {rows : List α} (p : α → Bool) (h : Unique key rows) :
    Unique key (rows.filter p) :=
  (List.filter_sublist.map key).nodup h

theorem unique_map {key : α → κ} {rows : List α} {f : α → α} (hf : ∀ x, key (f x) = key x)
    (h : Unique key rows) : Unique key (rows.map f) := by
  unfold Unique
  rw [List.map_map,show key ∘ f = key from funext hf]
  exact h

theorem unique_inj {key : α → κ} {rows : List α} (h : Unique key rows) {x y : α} (hx : x ∈ rows)
    (hy : y ∈ rows) (he : key x = key y) : x = y :=
  List.inj_on_of_nodup_map h hx hy he

theorem unique_find {key : α → κ} {rows : List α} (h : Unique key rows) {x : α} (hx : x ∈ rows)
    {p : α → Bool} (hp : ∀ y, p y = true ↔ key y = key x) : rows.find? p = some x := by
  cases hf : rows.find? p with
  | none =>
    have hn := List.find?_eq_none.mp hf x hx
    exact absurd ((hp x).mpr rfl) hn
  | some y =>
    have hy := List.find?_some hf
    exact congrArg some (unique_inj h (List.mem_of_find?_eq_some hf) hx ((hp y).mp hy))

theorem unique_countP_filter [DecidableEq κ] {key : α → κ} {rows : List α} (h : Unique key rows)
    {x : α} (hx : x ∈ rows) (p : α → Bool) :
    (rows.filter fun r => key r ≠ key x).countP p + (if p x then 1 else 0) = rows.countP p := by
  induction rows with
  | nil => cases hx
  | cons y ys ih =>
    obtain ⟨hy,hys⟩ := List.nodup_cons.mp h
    rcases List.mem_cons.mp hx with rfl | hx
    · have hkeep : ys.filter (fun r => key r ≠ key x) = ys := by
        apply List.filter_eq_self.mpr
        intro r hr
        simp only [decide_eq_true_eq]
        intro he
        exact hy (he ▸ List.mem_map_of_mem hr)
      rw [List.filter_cons_of_neg (by simp),hkeep,List.countP_cons]
    · have hne : key y ≠ key x := by
        intro he
        exact hy (he ▸ List.mem_map_of_mem hx)
      rw [List.filter_cons_of_pos (by simpa using hne),List.countP_cons,List.countP_cons]
      have hrest := ih hys hx
      omega

/-- Rows numbered below `next`, from one on. -/
structure Numbered (id : α → ℕ) (next : ℕ) (rows : List α) : Prop where
  unique : Unique id rows
  below : ∀ r ∈ rows, id r < next
  positive : ∀ r ∈ rows, 0 < id r
  counter : 0 < next

variable {id : α → ℕ} {next : ℕ} {rows : List α}

theorem numbered_nil : Numbered id 1 ([] : List α) :=
  ⟨unique_nil id,by simp,by simp,Nat.one_pos⟩

theorem numbered_append {r : α} (h : Numbered id next rows) (hr : id r = next) :
    Numbered id (next+1) (rows ++ [r]) where
  unique := unique_append h.unique fun x hx => by
    have hlt := h.below x hx
    omega
  below := by
    intro x hx
    rcases List.mem_append.mp hx with hx | hx
    · have hlt := h.below x hx
      omega
    · obtain rfl := List.mem_singleton.mp hx
      omega
  positive := by
    intro x hx
    rcases List.mem_append.mp hx with hx | hx
    · exact h.positive x hx
    · obtain rfl := List.mem_singleton.mp hx
      have hpos := h.counter
      omega
  counter := Nat.succ_pos next

theorem numbered_filter (p : α → Bool) (h : Numbered id next rows) :
    Numbered id next (rows.filter p) :=
  ⟨unique_filter p h.unique,fun r hr => h.below r (List.mem_of_mem_filter hr),
    fun r hr => h.positive r (List.mem_of_mem_filter hr),h.counter⟩

theorem numbered_map {f : α → α} (hf : ∀ x, id (f x) = id x) (h : Numbered id next rows) :
    Numbered id next (rows.map f) where
  unique := unique_map hf h.unique
  below := by
    intro r hr
    obtain ⟨x,hx,rfl⟩ := List.mem_map.mp hr
    rw [hf]
    exact h.below x hx
  positive := by
    intro r hr
    obtain ⟨x,hx,rfl⟩ := List.mem_map.mp hr
    rw [hf]
    exact h.positive x hx
  counter := h.counter

end Rows
