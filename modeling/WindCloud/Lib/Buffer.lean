import Mathlib.Data.List.Basic
import Mathlib.Data.List.TakeDrop
import Mathlib.Tactic.Common

/-!
# File contents as lists

Resizing, positioned writing and writing through a shared mapping, with the
hole of a write behind the end filled. Two contents agree up to a position
when they have the same entries below it; this is the relation that a
partially received copy keeps to its original.
-/

set_option autoImplicit false

namespace Buffer

variable {α : Type}

def resize (z : α) (f : List α) (n : ℕ) : List α := f.take n ++ List.replicate (n-f.length) z

def splice (z : α) (f : List α) (p : ℕ) (d : List α) : List α :=
  resize z f p ++ d ++ f.drop (p+d.length)

/-- A store through a mapping reaches only the bytes inside the file. -/
def patch (f : List α) (p : ℕ) (d : List α) : List α :=
  (f.take p ++ d ++ f.drop (p+d.length)).take f.length

@[simp] theorem resize_length (z : α) (f : List α) (n : ℕ) : (resize z f n).length = n := by
  simp only [resize,List.length_append,List.length_take,List.length_replicate]
  omega

theorem resize_getElem (z : α) (f : List α) (n i : ℕ) (hi : i < n) (hf : i < f.length) :
    (resize z f n)[i]? = f[i]? := by
  rw [resize,List.getElem?_append_left (by rw [List.length_take]; omega),
    List.getElem?_take_of_lt hi]

theorem resize_shrink (z : α) (f : List α) (n : ℕ) (h : n ≤ f.length) :
    resize z f n = f.take n := by
  simp [resize,Nat.sub_eq_zero_of_le h]

theorem splice_length (z : α) (f : List α) (p : ℕ) (d : List α) :
    (splice z f p d).length = max (p+d.length) f.length := by
  simp only [splice,List.length_append,resize_length,List.length_drop]
  omega

theorem splice_getElem (z : α) (f : List α) (p i : ℕ) (d : List α) (hp : p ≤ f.length) :
    (splice z f p d)[i]? = if p ≤ i ∧ i < p+d.length then d[i-p]? else f[i]? := by
  have hr : (resize z f p).length = p := resize_length z f p
  by_cases h1 : i < p
  · rw [if_neg (by omega),splice,List.append_assoc,
      List.getElem?_append_left (by omega),resize_getElem z f p i h1 (by omega)]
  by_cases h2 : i < p+d.length
  · rw [if_pos ⟨by omega,h2⟩,splice,List.append_assoc,List.getElem?_append_right (by omega),
      List.getElem?_append_left (by omega),hr]
  · rw [if_neg (by omega),splice,List.getElem?_append_right (by simp; omega),
      List.length_append,hr,List.getElem?_drop]
    congr 1
    omega

theorem patch_eq_splice (z : α) (f : List α) (p : ℕ) (d : List α) (h : p+d.length ≤ f.length) :
    patch f p d = splice z f p d := by
  have hl : (f.take p ++ d ++ f.drop (p+d.length)).length = f.length := by
    simp only [List.length_append,List.length_take,List.length_drop]
    omega
  rw [patch,← hl,List.take_length,splice,resize_shrink z f p (by omega)]

theorem splice_splice (z : α) (f : List α) {p : ℕ} (hp : p ≤ f.length) (d e : List α) :
    splice z (splice z f p d) (p+d.length) e = splice z f p (d ++ e) := by
  have hl : p+d.length ≤ (splice z f p d).length := by
    rw [splice_length]
    omega
  apply List.ext_getElem?
  intro i
  rw [splice_getElem z _ _ i e hl,splice_getElem z f p i d hp,splice_getElem z f p i (d ++ e) hp,
    List.length_append]
  by_cases hd : p ≤ i ∧ i < p+d.length
  · rw [if_neg (by omega),if_pos hd,if_pos (by omega),List.getElem?_append_left (by omega)]
  by_cases he : p+d.length ≤ i ∧ i < p+d.length+e.length
  · rw [if_pos he,if_pos (by omega),List.getElem?_append_right (by omega)]
    congr 1
    omega
  · rw [if_neg he,if_neg hd,if_neg (by omega)]

theorem splice_nil (z : α) (f : List α) {p : ℕ} (hp : p ≤ f.length) : splice z f p [] = f := by
  rw [splice,resize_shrink z f p hp,List.append_nil,List.length_nil,Nat.add_zero,
    List.take_append_drop]

theorem splice_take (z : α) {w d : List α} {k : ℕ} (hk : k ≤ w.length) (hd : d <+: w.drop k) :
    splice z (w.take k) k d = w.take (k+d.length) := by
  have hl : (w.take k).length = k := by rw [List.length_take]; omega
  rw [splice,resize_shrink z _ k (by omega),List.take_take,Nat.min_self,
    List.drop_of_length_le (by omega),List.append_nil,List.take_add,
    ← List.prefix_iff_eq_take.mp hd]

theorem prefix_drop {w d : List α} {k : ℕ} (hd : d <+: w.drop k) (total : ℕ) :
    d.drop total <+: w.drop (k+total) := by
  obtain ⟨t,ht⟩ := hd
  rcases Nat.le_total total d.length with hle | hle
  · refine ⟨t,?_⟩
    rw [← List.drop_drop,← ht,List.drop_append_of_le_length hle]
  · rw [List.drop_of_length_le hle]
    exact List.nil_prefix

def Agrees (f g : List α) (k : ℕ) : Prop := ∀ i < k, f[i]? = g[i]?

theorem agrees_mono {f c : List α} {j k : ℕ} (h : Agrees f c k) (hj : j ≤ k) : Agrees f c j :=
  fun i hi => h i (by omega)

theorem agrees_zero (f c : List α) : Agrees f c 0 := fun _ h => absurd h (by omega)

theorem agrees_take {f c : List α} {k : ℕ} (h : Agrees f c k) : f.take k = c.take k := by
  apply List.ext_getElem?
  intro i
  by_cases hi : i < k
  · rw [List.getElem?_take_of_lt hi,List.getElem?_take_of_lt hi,h i hi]
  · rw [List.getElem?_eq_none (by rw [List.length_take]; omega),
      List.getElem?_eq_none (by rw [List.length_take]; omega)]

theorem agrees_isPrefix {f c : List α} (h : f <+: c) : Agrees f c f.length := by
  obtain ⟨t,rfl⟩ := h
  exact fun i hi => (List.getElem?_append_left hi).symm

theorem agrees_eq {f c : List α} (h : Agrees f c c.length) (hl : f.length = c.length) : f = c := by
  have ht := agrees_take h
  rwa [List.take_length,← hl,List.take_length] at ht

theorem agrees_resize (z : α) {f c : List α} {k : ℕ} (n : ℕ) (h : Agrees f c k)
    (hk : k ≤ f.length) (hn : k ≤ n) : Agrees (resize z f n) c k := by
  intro i hi
  rw [resize_getElem z f n i (by omega) (by omega)]
  exact h i hi

theorem cut_prefix (z : α) {f c : List α} {k : ℕ} (h : Agrees f c k) (hk : k ≤ f.length) :
    resize z f k <+: c := by
  rw [resize_shrink z f k hk,agrees_take h]
  exact List.take_prefix k c

/-- Writing further bytes of the original keeps every agreement and extends
the one at the position of the write. -/
theorem agrees_splice (z : α) {f c d : List α} {p k : ℕ} (hp : p ≤ f.length)
    (hd : d <+: c.drop p) (h : Agrees f c k) : Agrees (splice z f p d) c k := by
  intro i hi
  rw [splice_getElem z f p i d hp]
  split
  · rename_i hin
    obtain ⟨t,ht⟩ := hd
    have hg : (d++t)[i-p]? = d[i-p]? := List.getElem?_append_left (by omega)
    rw [← hg,ht,List.getElem?_drop]
    congr 1
    omega
  · exact h i hi

theorem agrees_splice_extend (z : α) {f c d : List α} {p : ℕ} (hp : p ≤ f.length)
    (hd : d <+: c.drop p) (h : Agrees f c p) : Agrees (splice z f p d) c (p+d.length) := by
  intro i hi
  by_cases hip : i < p
  · exact agrees_splice z hp hd h i hip
  · rw [splice_getElem z f p i d hp,if_pos ⟨by omega,hi⟩]
    obtain ⟨t,ht⟩ := hd
    have hg : (d++t)[i-p]? = d[i-p]? := List.getElem?_append_left (by omega)
    rw [← hg,ht,List.getElem?_drop]
    congr 1
    omega

/-- The first `k` entries, and filling up to the full length. -/
def padded (z : α) (c : List α) (k : ℕ) : List α :=
  c.take k ++ List.replicate (c.length-k) z

@[simp] theorem padded_length (z : α) (c : List α) (k : ℕ) :
    (padded z c k).length = c.length := by
  simp only [padded,List.length_append,List.length_take,List.length_replicate]
  omega

theorem padded_getElem (z : α) (l : List α) (k i : ℕ) (hi : i < l.length) :
    (padded z l k)[i]? = if i < k then l[i]? else some z := by
  by_cases hk : i < k
  · rw [if_pos hk,padded,List.getElem?_append_left (by rw [List.length_take]; omega),
      List.getElem?_take_of_lt hk]
  · rw [if_neg hk,padded,List.getElem?_append_right (by rw [List.length_take]; omega),
      List.length_take,List.getElem?_replicate_of_lt (by omega)]

theorem padded_agrees (z : α) (c : List α) (k : ℕ) : Agrees (padded z c k) c k := by
  intro i hi
  by_cases hc : i < c.length
  · rw [padded_getElem z c k i hc,if_pos hi]
  · rw [List.getElem?_eq_none (by rw [padded_length]; omega),
      List.getElem?_eq_none (by omega)]

theorem padded_full (z : α) {c : List α} {k : ℕ} (hk : c.length ≤ k) : padded z c k = c := by
  simp [padded,List.take_of_length_le hk,Nat.sub_eq_zero_of_le hk]

theorem resize_padded (z : α) {c : List α} {k : ℕ} (hk : k ≤ c.length) :
    resize z (c.take k) c.length = padded z c k := by
  rw [resize,padded,List.length_take,Nat.min_eq_left hk,
    List.take_of_length_le (by rw [List.length_take]; omega)]

theorem splice_padded (z : α) {c d : List α} {p k : ℕ} (hp : p ≤ k) (hpc : p ≤ c.length)
    (hd : d <+: c.drop p) : splice z (padded z c k) p d = padded z c (max k (p+d.length)) := by
  have hl : p+d.length ≤ c.length := by
    have h := hd.length_le
    rw [List.length_drop] at h
    omega
  apply List.ext_getElem?
  intro i
  by_cases hi : i < c.length
  · rw [splice_getElem z _ p i d (by rw [padded_length]; exact hpc),padded_getElem z c k i hi,
      padded_getElem z c _ i hi]
    by_cases hin : p ≤ i ∧ i < p+d.length
    · obtain ⟨t,ht⟩ := hd
      have hg : (d++t)[i-p]? = d[i-p]? := List.getElem?_append_left (by omega)
      rw [if_pos hin,if_pos (by omega),← hg,ht,List.getElem?_drop]
      congr 1
      omega
    · rw [if_neg hin]
      by_cases hk : i < k
      · rw [if_pos hk,if_pos (by omega)]
      · rw [if_neg hk,if_neg (by omega)]
  · rw [List.getElem?_eq_none (by rw [splice_length,padded_length]; omega),
      List.getElem?_eq_none (by rw [padded_length]; omega)]

theorem padded_prefix (z : α) (c : List α) (k : ℕ) :
    padded z c k <+: c ↔ ∀ x ∈ c.drop k, x = z := by
  have heq : padded z c k = c ↔ List.replicate (c.length-k) z = c.drop k := by
    nth_rewrite 2 [← List.take_append_drop k c]
    exact List.append_right_inj _
  constructor
  · intro h x hx
    rw [← heq.mp (h.eq_of_length (padded_length z c k))] at hx
    exact List.eq_of_mem_replicate hx
  · intro h
    have hsame : padded z c k = c :=
      heq.mpr (List.eq_replicate_iff.mpr ⟨List.length_drop,h⟩).symm
    exact ⟨[],by rw [List.append_nil,hsame]⟩

end Buffer
