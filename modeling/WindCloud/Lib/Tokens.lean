import Mathlib.Data.List.TakeWhile
import WindCloud.Lib.CString

/-!
# Tokens

What `strtok` makes of a text that was put together from fields. A field is
read back when it is not empty and holds no delimiter, and whatever the text, a
token holds none.
-/

set_option autoImplicit false

namespace CString

variable {delims t token rest : Text}

theorem strtok_cons {x : Char} (hx : x ∉ delims) :
    strtok delims (x::rest) =
      some ((x::rest).takeWhile (· ∉ delims),((x::rest).dropWhile (· ∉ delims)).drop 1) := by
  have hd : (x::rest).dropWhile (· ∈ delims) = x::rest :=
    List.dropWhile_cons_of_neg (by simpa using hx)
  rw [strtok,hd]

theorem strtok_delim {x : Char} (hx : x ∈ delims) :
    strtok delims (x::rest) = strtok delims rest := by
  have hd : (x::rest).dropWhile (· ∈ delims) = rest.dropWhile (· ∈ delims) :=
    List.dropWhile_cons_of_pos (by simpa using hx)
  rw [strtok,strtok,hd]

theorem strtok_field {d : Char} (ht : token ≠ []) (h : ∀ x ∈ token, x ∉ delims) (hd : d ∈ delims) :
    strtok delims (token ++ d::rest) = some (token,rest) := by
  cases token with
  | nil => exact absurd rfl ht
  | cons x token =>
    have hall : ∀ y ∈ x::token, decide (y ∉ delims) = true := fun y hy => by simpa using h y hy
    have hstop : ¬ decide (d ∉ delims) = true := by simpa using hd
    have htake : (x::token ++ d::rest).takeWhile (· ∉ delims) = x::token := by
      rw [List.takeWhile_append_of_pos hall,
        List.takeWhile_cons_of_neg (p := fun y => decide (y ∉ delims)) hstop,List.append_nil]
    have hdrop : (x::token ++ d::rest).dropWhile (· ∉ delims) = d::rest := by
      rw [List.dropWhile_append_of_pos hall,
        List.dropWhile_cons_of_neg (p := fun y => decide (y ∉ delims)) hstop]
    rw [List.cons_append] at htake hdrop ⊢
    rw [strtok_cons (h x (by simp)),htake,hdrop,List.drop_one,List.tail_cons]

theorem strtok_last (ht : token ≠ []) (h : ∀ x ∈ token, x ∉ delims) :
    strtok delims token = some (token,[]) := by
  cases token with
  | nil => exact absurd rfl ht
  | cons x token =>
    have hall : ∀ y ∈ x::token, decide (y ∉ delims) = true := fun y hy => by simpa using h y hy
    have htake : (x::token).takeWhile (· ∉ delims) = x::token :=
      List.takeWhile_eq_self_iff.mpr hall
    have hdrop : (x::token).dropWhile (· ∉ delims) = [] := List.dropWhile_eq_nil_iff.mpr hall
    rw [strtok_cons (h x (by simp)),htake,hdrop,List.drop_nil]

theorem strtok_token (h : strtok delims t = some (token,rest)) :
    token ≠ [] ∧ ∀ x ∈ token, x ∉ delims := by
  induction t with
  | nil => cases h
  | cons x t ih =>
    by_cases hx : x ∈ delims
    · rw [strtok_delim hx] at h
      exact ih h
    · rw [strtok_cons hx] at h
      obtain ⟨rfl,-⟩ := Prod.mk.inj (Option.some.inj h)
      constructor
      · rw [List.takeWhile_cons_of_pos (by simpa using hx)]
        exact List.cons_ne_nil _ _
      · intro y hy
        simpa using List.mem_takeWhile_imp hy

theorem strtok_length (h : strtok delims t = some (token,rest)) :
    token.length ≤ t.length ∧ (rest ≠ [] → token.length+1+rest.length ≤ t.length) := by
  have hskip := (List.dropWhile_sublist (fun x => decide (x ∈ delims)) (l := t)).length_le
  unfold strtok at h
  split at h
  · cases h
  · rename_i x u hu
    obtain ⟨rfl,rfl⟩ := Prod.mk.inj (Option.some.inj h)
    rw [hu] at hskip
    have hparts := congrArg List.length
      (List.takeWhile_append_dropWhile (p := fun y => decide (y ∉ delims)) (l := x::u))
    rw [List.length_append] at hparts
    refine ⟨by omega,fun hrest => ?_⟩
    have hpos := List.length_pos_of_ne_nil hrest
    rw [List.length_drop] at hpos ⊢
    omega

end CString
