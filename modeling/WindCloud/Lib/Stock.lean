import Mathlib.Data.List.Nodup
import Mathlib.Data.List.Perm.Subperm
import Mathlib.Logic.Function.Basic
import Mathlib.Tactic.Common

/-!
# A stock and those who hold something of it

Things are taken from a stock and given back to it, each holder having at most
one of them. Nothing is held twice, held and in stock, or lost.
-/

set_option autoImplicit false

namespace Stock
open Function

variable {ι κ : Type} {all stock : List κ} {held : ι → Option κ} {i : ι} {c : κ}

structure Shared (all stock : List κ) (held : ι → Option κ) : Prop where
  single : stock.Nodup
  holder : ∀ i j c, held i = some c → held j = some c → i = j
  apart : ∀ i c, held i = some c → c ∉ stock
  whole : ∀ c, c ∈ all ↔ c ∈ stock ∨ ∃ i, held i = some c

theorem shared_start (h : all.Nodup) : Shared all all (fun _ : ι => none) where
  single := h
  holder := by simp
  apart := by simp
  whole := by simp

theorem shared_length (h : Shared all stock held) : stock.length ≤ all.length := by
  have hsub : stock ⊆ all := fun c hc => (h.whole c).mpr (.inl hc)
  exact (List.subperm_of_subset h.single hsub).length_le

variable [DecidableEq ι]

theorem shared_take (h : Shared all (stock ++ [c]) held) (hi : held i = none) :
    Shared all stock (update held i (some c)) := by
  obtain ⟨hstock,-,hout⟩ := List.nodup_append.mp h.single
  have hc : c ∉ stock := fun hin => hout c hin c (by simp) rfl
  have hfree : ∀ j, held j ≠ some c := fun j hj => h.apart j c hj (by simp)
  refine ⟨hstock,fun j k d hj hk => ?_,fun j d hj => ?_,fun d => ?_⟩
  · by_cases hji : j = i <;> by_cases hki : k = i
    · rw [hji,hki]
    · subst hji
      rw [update_self] at hj
      rw [update_of_ne hki,← hj] at hk
      exact absurd hk (hfree k)
    · subst hki
      rw [update_self] at hk
      rw [update_of_ne hji,← hk] at hj
      exact absurd hj (hfree j)
    · rw [update_of_ne hji] at hj
      rw [update_of_ne hki] at hk
      exact h.holder j k d hj hk
  · by_cases hji : j = i
    · subst hji
      rw [update_self] at hj
      obtain rfl := Option.some.inj hj
      exact hc
    · rw [update_of_ne hji] at hj
      exact fun hin => h.apart j d hj (List.mem_append_left _ hin)
  · rw [h.whole d,List.mem_append,List.mem_singleton]
    constructor
    · rintro ((hin | rfl) | ⟨j,hj⟩)
      · exact .inl hin
      · exact .inr ⟨i,update_self _ _ _⟩
      · have hji : j ≠ i := by
          rintro rfl
          rw [hi] at hj
          cases hj
        exact .inr ⟨j,by rw [update_of_ne hji,hj]⟩
    · rintro (hin | ⟨j,hj⟩)
      · exact .inl (.inl hin)
      · by_cases hji : j = i
        · subst hji
          rw [update_self] at hj
          exact .inl (.inr (Option.some.inj hj).symm)
        · rw [update_of_ne hji] at hj
          exact .inr ⟨j,hj⟩

theorem shared_give (h : Shared all stock held) (hi : held i = some c) :
    Shared all (stock ++ [c]) (update held i none) := by
  have hother : ∀ j d, update held i none j = some d → j ≠ i ∧ held j = some d := by
    intro j d hj
    by_cases hji : j = i
    · subst hji
      rw [update_self] at hj
      cases hj
    · rw [update_of_ne hji] at hj
      exact ⟨hji,hj⟩
  refine ⟨?_,fun j k d hj hk => ?_,fun j d hj hin => ?_,fun d => ?_⟩
  · refine List.nodup_append.mpr ⟨h.single,List.nodup_singleton c,?_⟩
    rintro a ha b hb rfl
    obtain rfl := List.mem_singleton.mp hb
    exact h.apart i a hi ha
  · exact h.holder j k d (hother j d hj).2 (hother k d hk).2
  · obtain ⟨hji,hj⟩ := hother j d hj
    rcases List.mem_append.mp hin with hin | hin
    · exact h.apart j d hj hin
    · obtain rfl := List.mem_singleton.mp hin
      exact hji (h.holder j i d hj hi)
  · rw [h.whole d,List.mem_append,List.mem_singleton]
    constructor
    · rintro (hin | ⟨j,hj⟩)
      · exact .inl (.inl hin)
      · by_cases hji : j = i
        · subst hji
          exact .inl (.inr (Option.some.inj (hj.symm.trans hi)))
        · exact .inr ⟨j,by rw [update_of_ne hji,hj]⟩
    · rintro ((hin | rfl) | ⟨j,hj⟩)
      · exact .inl hin
      · exact .inr ⟨i,hi⟩
      · exact .inr ⟨j,(hother j d hj).2⟩

end Stock
