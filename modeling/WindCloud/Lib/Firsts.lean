import Mathlib.Data.List.Nodup

/-!
# The first of several pairs

A list of pairs read for a key from its beginning, and when that gives what a shorter
list of pairs with different keys holds.
-/

set_option autoImplicit false

namespace Firsts

/-- The value of the first pair with this key. -/
def firstValue {κ ν : Type} [DecidableEq κ] (key : κ) (ps : List (κ × ν)) : Option ν :=
  (ps.find? fun p => decide (p.1 = key)).map Prod.snd


variable {κ ν : Type} [DecidableEq κ] {key : κ} {value : ν} {ps es : List (κ × ν)}

theorem firstValue_none : firstValue key ps = none ↔ key ∉ ps.map Prod.fst := by
  simp only [firstValue,Option.map_eq_none_iff,List.find?_eq_none,List.mem_map,decide_eq_true_eq]
  constructor
  · rintro h ⟨p,hp,rfl⟩
    exact h p hp rfl
  · exact fun h p hp hk => h ⟨p,hp,hk⟩

theorem firstValue_behind {before : List (κ × ν)} {p : κ × ν} (after : List (κ × ν))
    (h : p.1 ∉ before.map Prod.fst) : firstValue p.1 (before ++ p::after) = some p.2 := by
  induction before with
  | nil => simp [firstValue]
  | cons q before ih =>
    rw [List.map_cons,List.mem_cons,not_or] at h
    rw [← ih h.2,List.cons_append,firstValue,firstValue,
      List.find?_cons_of_neg (by simpa using Ne.symm h.1)]

theorem firstValue_split (h : firstValue key ps = some value) :
    ∃ before after, ps = before ++ (key,value)::after ∧ key ∉ before.map Prod.fst := by
  induction ps with
  | nil => cases h
  | cons q ps ih =>
    by_cases hq : q.1 = key
    · rw [firstValue,List.find?_cons_of_pos (by simpa using hq)] at h
      obtain rfl : q.2 = value := Option.some.inj h
      refine ⟨[],ps,?_,by simp⟩
      rw [← hq]
      rfl
    · rw [firstValue,List.find?_cons_of_neg (by simpa using hq)] at h
      obtain ⟨before,after,rfl,hbefore⟩ := ih h
      refine ⟨q::before,after,rfl,?_⟩
      rw [List.map_cons,List.mem_cons,not_or]
      exact ⟨Ne.symm hq,hbefore⟩

theorem firstValue_distinct (hd : (es.map Prod.fst).Nodup) (h : (key,value) ∈ es) :
    firstValue key es = some value := by
  obtain ⟨before,after,rfl⟩ := List.append_of_mem h
  refine firstValue_behind (p := (key,value)) after fun hmem => ?_
  rw [List.map_append,List.nodup_append] at hd
  exact hd.2.2 _ hmem _ (by simp) rfl

theorem firstValue_agrees (hd : (es.map Prod.fst).Nodup) (hsub : ∀ p ∈ es, p ∈ ps) :
    ((∀ key value, (key,value) ∈ es → firstValue key ps = some value) ∧
        ∀ key, key ∉ es.map Prod.fst → firstValue key ps = none) ↔
      ∀ before p after, ps = before ++ p::after → p.1 ∉ before.map Prod.fst → p ∈ es := by
  constructor
  · rintro ⟨hpresent,habsent⟩ before p after rfl hfirst
    have hp := firstValue_behind after hfirst
    by_cases hkey : p.1 ∈ es.map Prod.fst
    · obtain ⟨⟨k,v⟩,he,hk⟩ := List.mem_map.mp hkey
      obtain rfl : k = p.1 := hk
      have hv := hpresent _ v he
      rw [hp] at hv
      obtain rfl := Option.some.inj hv
      exact he
    · rw [habsent _ hkey] at hp
      cases hp
  · intro h
    have hfound : ∀ key value, firstValue key ps = some value → (key,value) ∈ es := by
      intro key value hv
      obtain ⟨before,after,hps,hbefore⟩ := firstValue_split hv
      exact h before (key,value) after hps hbefore
    constructor
    · intro key value he
      cases hv : firstValue key ps with
      | none => exact absurd (List.mem_map_of_mem (hsub _ he)) (firstValue_none.mp hv)
      | some v =>
        rw [← firstValue_distinct hd (hfound key v hv),firstValue_distinct hd he]
    · intro key hkey
      cases hv : firstValue key ps with
      | none => rfl
      | some v => exact absurd (List.mem_map_of_mem (hfound key v hv)) hkey

end Firsts
