import Mathlib.Data.List.Basic
import Mathlib.Data.List.TakeDrop
import Mathlib.Tactic.Common

/-!
# C strings

A `char` is a `Char` of which nothing but equality is used, and a string is
the list of the characters before its terminator. The functions follow the
library functions of the same name; `bounded` is the test made on the value
`snprintf` returns.
-/

set_option autoImplicit false

namespace CString

abbrev Text := List Char

/-- The text `snprintf` leaves in a buffer of `size` bytes, refused when cut. -/
def bounded (size : ℕ) (t : Text) : Option Text := if t.length < size then some t else none

/-- `strrchr t c`, split as the text before the last `c` and the text after it. -/
def splitLast (c : Char) : Text → Option (Text × Text)
  | [] => none
  | x::t =>
    match splitLast c t with
    | some (a,b) => some (x::a,b)
    | none => if x = c then some ([],t) else none

def isInfix (needle t : Text) : Bool := t.tails.any needle.isPrefixOf

/-- One call of `strtok`: leading delimiters are skipped, the token ends at the
next one, and the cursor moves behind that. -/
def strtok (delims : Text) (t : Text) : Option (Text × Text) :=
  match t.dropWhile (· ∈ delims) with
  | [] => none
  | x::rest => some ((x::rest).takeWhile (· ∉ delims),((x::rest).dropWhile (· ∉ delims)).drop 1)

/-- The characters of `isspace`. -/
def isSpace (c : Char) : Bool := [' ','\t','\n','\x0b','\x0c','\r'].contains c

/-- One conversion `%<width>s` of `sscanf`, with the text behind it. -/
def scanWord (width : ℕ) (t : Text) : Text × Text :=
  let word := ((t.dropWhile isSpace).takeWhile fun c => !isSpace c).take width
  (word,(t.dropWhile isSpace).drop word.length)

theorem bounded_eq_some {size : ℕ} {t u : Text} :
    bounded size t = some u ↔ t = u ∧ t.length < size := by
  unfold bounded
  split
  · rename_i h
    simp [h]
  · rename_i h
    simp only [reduceCtorEq,false_iff,not_and]
    intro _ hl
    exact h hl

theorem splitLast_none {c : Char} {t : Text} : splitLast c t = none ↔ c ∉ t := by
  induction t with
  | nil => simp [splitLast]
  | cons x t ih =>
    simp only [splitLast,List.mem_cons,not_or]
    cases h : splitLast c t with
    | none =>
      have ht := ih.mp h
      by_cases hx : x = c
      · simp [hx]
      · simp [hx,ht,Ne.symm hx]
    | some ab =>
      have ht : c ∈ t := by
        by_contra hc
        simp [ih.mpr hc] at h
      simp [ht]

theorem splitLast_some {c : Char} {t a b : Text} :
    splitLast c t = some (a,b) ↔ t = a ++ c::b ∧ c ∉ b := by
  induction t generalizing a b with
  | nil => simp [splitLast]
  | cons x t ih =>
    simp only [splitLast]
    cases h : splitLast c t with
    | some ab =>
      obtain ⟨a',b'⟩ := ab
      obtain ⟨ht,hb⟩ := ih.mp h
      constructor
      · intro he
        obtain ⟨rfl,rfl⟩ : x::a' = a ∧ b' = b := by simpa using he
        exact ⟨by simp [ht],hb⟩
      · rintro ⟨he,hb'⟩
        cases a with
        | nil =>
          obtain ⟨rfl,rfl⟩ : x = c ∧ t = b := by simpa using he
          simp [ht] at hb'
        | cons y a =>
          obtain ⟨rfl,rfl⟩ : x = y ∧ t = a ++ c::b := by simpa using he
          have hs := ih.mpr ⟨rfl,hb'⟩
          rw [h] at hs
          obtain ⟨rfl,rfl⟩ : a' = a ∧ b' = b := by simpa using hs
          rfl
    | none =>
      have hc := splitLast_none.mp h
      constructor
      · intro he
        by_cases hx : x = c
        · obtain ⟨rfl,rfl⟩ : ([]:Text) = a ∧ t = b := by simpa [hx] using he
          exact ⟨by simp [hx],hc⟩
        · simp [hx] at he
      · rintro ⟨he,_⟩
        cases a with
        | nil =>
          obtain ⟨rfl,rfl⟩ : x = c ∧ t = b := by simpa using he
          simp
        | cons y a =>
          obtain ⟨rfl,rfl⟩ : x = y ∧ t = a ++ c::b := by simpa using he
          simp at hc

end CString
