import Mathlib.Data.Int.Notation
import Mathlib.Data.List.TakeWhile
import Mathlib.Tactic.Common
import WindCloud.Lib.CString

/-!
# Decimal numbers as text

`decimal` is the `%d` and `%lld` conversion, `atoll` the reading function:
leading blanks and a sign, then digits up to the first other character.
`atollOff` is its value where the text need not have been printed: a number out
of range gives the nearest one of 64 bits.
-/

set_option autoImplicit false

namespace CString

def decimal (n : ℤ) : Text :=
  if n < 0 then '-'::Nat.toDigits 10 n.natAbs else Nat.toDigits 10 n.natAbs

def isBlank (c : Char) : Bool := c ∈ [' ','\t','\n','\x0b','\x0c','\r']

def readDigits (t : Text) : ℤ := Nat.ofDigitChars 10 (t.takeWhile Char.isDigit) 0

def atoll (t : Text) : ℤ :=
  match t.dropWhile isBlank with
  | '-'::u => -readDigits u
  | '+'::u => readDigits u
  | u => readDigits u

def offMin : ℤ := -9223372036854775808
def offMax : ℤ := 9223372036854775807

def atollOff (t : Text) : ℤ := max offMin (min offMax (atoll t))

theorem atollOff_le (t : Text) : atollOff t ≤ offMax := by
  unfold atollOff offMin offMax
  omega

theorem digits_isDigit (n : ℕ) : ∀ c ∈ Nat.toDigits 10 n, c.isDigit = true :=
  fun _ hc => Nat.isDigit_of_mem_toDigits (by decide) (by decide) hc

theorem readDigits_digits (n : ℕ) {t : Text} (ht : ∀ c ∈ t.head?, c.isDigit = false) :
    readDigits (Nat.toDigits 10 n ++ t) = n := by
  have hs : t.takeWhile Char.isDigit = [] := by
    cases t with
    | nil => rfl
    | cons c t => exact List.takeWhile_cons_of_neg (by simp [ht c (by simp)])
  rw [readDigits,List.takeWhile_append_of_pos (digits_isDigit n),hs,List.append_nil,
    Nat.ofDigitChars_ten_toDigits]

theorem isDigit_not_blank {c : Char} (h : c.isDigit = true) : isBlank c = false := by
  cases hb : isBlank c with
  | false => rfl
  | true =>
    have hm : c ∈ [' ','\t','\n','\x0b','\x0c','\r'] := by simpa [isBlank] using hb
    simp only [List.mem_cons,List.not_mem_nil,or_false] at hm
    rcases hm with rfl | rfl | rfl | rfl | rfl | rfl <;> exact absurd h (by decide)

/-- A printed number is read back, whatever other than a digit follows it. -/
theorem atoll_decimal_append (n : ℤ) {t : Text} (ht : ∀ c ∈ t.head?, c.isDigit = false) :
    atoll (decimal n ++ t) = n := by
  unfold decimal
  split
  · have hb : isBlank '-' = false := by decide
    rw [List.cons_append,atoll,List.dropWhile_cons_of_neg (by simp [hb])]
    simp only [readDigits_digits _ ht]
    omega
  · have hd := digits_isDigit n.natAbs
    have hr := readDigits_digits n.natAbs ht
    cases hn : Nat.toDigits 10 n.natAbs with
    | nil => exact absurd hn Nat.toDigits_ne_nil
    | cons c u =>
      rw [hn] at hd hr
      rw [List.cons_append] at hr ⊢
      have hc := hd c (by simp)
      have hm : c ≠ '-' := by rintro rfl; exact absurd hc (by decide)
      have hp : c ≠ '+' := by rintro rfl; exact absurd hc (by decide)
      rw [atoll,List.dropWhile_cons_of_neg (by simp [isDigit_not_blank hc])]
      split
      · rename_i u he
        exact absurd (List.cons.inj he).1 hm
      · rename_i u he
        exact absurd (List.cons.inj he).1 hp
      · rw [hr]
        omega

theorem atoll_decimal (n : ℤ) : atoll (decimal n) = n := by
  have h := atoll_decimal_append n (t := []) (by simp)
  rwa [List.append_nil] at h

end CString
