import Mathlib.Logic.Function.Basic
import Mathlib.Data.Option.Basic
import WindCloud.Lib.Runs

/-!
# Entries under names, changed one at a time

A shelf has at most one entry under each name. A deed puts an entry under a free
name, or takes away an entry of a kind. A system whose steps are deeds on the
shelf one sees in it, or leave that shelf alone, keeps an entry until a step
takes it away.
-/

set_option autoImplicit false

namespace Shelf
open Function Runs

variable {N E K : Type}

inductive Deed (N E K : Type) where
  | put (n : N) (e : E)
  | take (n : N) (k : K)

def Deed.name : Deed N E K → N
  | .put n _ => n
  | .take n _ => n

def Deed.map {F : Type} (f : E → F) : Deed N E K → Deed N F K
  | .put n e => .put n (f e)
  | .take n k => .take n k

section Deeds

variable [DecidableEq N] [DecidableEq K] (kind : E → K)

def enact (S : N → Option E) : Deed N E K → Option (N → Option E)
  | .put n e => if (S n).isNone then some (update S n (some e)) else none
  | .take n k => if (S n).map kind = some k then some (update S n none) else none

variable {kind} {S S' : N → Option E} {d : Deed N E K}

theorem enact_put {n : N} {e : E} (h : enact kind S (.put n e) = some S') :
    S n = none ∧ S' = update S n (some e) := by
  dsimp only [enact] at h
  split at h
  · rename_i hfree
    exact ⟨Option.isNone_iff_eq_none.mp hfree,(Option.some.inj h).symm⟩
  · cases h

theorem enact_take {n : N} {k : K} (h : enact kind S (.take n k) = some S') :
    (S n).map kind = some k ∧ S' = update S n none := by
  dsimp only [enact] at h
  split at h
  · rename_i hkind
    exact ⟨hkind,(Option.some.inj h).symm⟩
  · cases h

theorem enact_free {n : N} {e : E} (h : S n = none) :
    enact kind S (.put n e) = some (update S n (some e)) := by
  rw [enact,h]
  rfl

theorem enact_held {n : N} {k : K} (h : (S n).map kind = some k) :
    enact kind S (.take n k) = some (update S n none) := by
  rw [enact,if_pos h]

theorem enact_other (h : enact kind S d = some S') {n : N} (hn : n ≠ d.name) : S' n = S n := by
  cases d with
  | put m e =>
    obtain ⟨-,rfl⟩ := enact_put h
    exact update_of_ne hn _ _
  | take m k =>
    obtain ⟨-,rfl⟩ := enact_take h
    exact update_of_ne hn _ _

/-- Only a deed that takes an entry away ends it. -/
theorem enact_stays (h : enact kind S d = some S') {n : N} {e : E} (he : S n = some e)
    (hd : ∀ k, d ≠ .take n k) : S' n = some e := by
  by_cases hn : n = d.name
  · cases d with
    | put m e' =>
      obtain ⟨hfree,-⟩ := enact_put h
      obtain rfl : n = m := hn
      rw [he] at hfree
      cases hfree
    | take m k =>
      obtain rfl : n = m := hn
      exact absurd rfl (hd k)
  · rw [enact_other h hn]
    exact he

/-- Deeds on shelves whose entries are looked at through a function. -/
theorem enact_map {F : Type} {f : E → F} {kind' : F → K} (hk : ∀ e, kind' (f e) = kind e)
    (h : enact kind S d = some S') :
    enact kind' (fun n => (S n).map f) (d.map f) = some fun n => (S' n).map f := by
  cases d with
  | put m e =>
    obtain ⟨hfree,rfl⟩ := enact_put h
    have hnone : enact kind' (fun n => (S n).map f) (.put m (f e)) =
        some (update (fun n => (S n).map f) m (some (f e))) := by
      apply enact_free
      simp only [hfree,Option.map_none]
    refine hnone.trans (congrArg some ?_)
    funext n
    by_cases hn : n = m
    · simp only [hn,update_self,Option.map_some]
    · simp only [update_of_ne hn]
  | take m k =>
    obtain ⟨hheld,rfl⟩ := enact_take h
    have hkind : enact kind' (fun n => (S n).map f) (.take m k) =
        some (update (fun n => (S n).map f) m none) := by
      apply enact_held
      simp only [Option.map_map,← hheld]
      congr 1
      funext e
      exact hk e
    refine hkind.trans (congrArg some ?_)
    funext n
    by_cases hn : n = m
    · simp only [hn,update_self,Option.map_none]
    · simp only [update_of_ne hn]

theorem enact_map_none {F : Type} {f : E → F} {kind' : F → K} (hk : ∀ e, kind' (f e) = kind e)
    (h : enact kind S d = none) : enact kind' (fun n => (S n).map f) (d.map f) = none := by
  cases d with
  | put m e =>
    cases hS : S m with
    | none =>
      rw [enact_free hS] at h
      cases h
    | some e' => simp only [Deed.map,enact,hS,Option.map_some,Option.isNone_some,Bool.false_eq_true,
        if_false]
  | take m k =>
    have hseen : ((S m).map f).map kind' = (S m).map kind := by
      rw [Option.map_map]
      congr 1
      funext e
      exact hk e
    dsimp only [enact] at h
    split at h
    · cases h
    · rename_i hother
      simp only [Deed.map,enact,hseen,hother,if_false]

variable (kind) in
/-- The shelf after a deed, or as it is where the deed cannot be done. -/
def attempt (S : N → Option E) (d : Deed N E K) : N → Option E := (enact kind S d).getD S

theorem attempt_map {F : Type} {f : E → F} {kind' : F → K} (hk : ∀ e, kind' (f e) = kind e)
    (S : N → Option E) (d : Deed N E K) :
    attempt kind' (fun n => (S n).map f) (d.map f) = fun n => (attempt kind S d n).map f := by
  unfold attempt
  cases hd : enact kind S d with
  | none => rw [enact_map_none hk hd,Option.getD_none,Option.getD_none]
  | some S' => rw [enact_map hk hd,Option.getD_some,Option.getD_some]

end Deeds

section Systems

variable [DecidableEq N] [DecidableEq K] {kind : E → K} {σ ε : Type} {step : σ → ε → Option σ}
  {ok : σ → ε → Prop} {I : σ → Prop} {shelf : σ → N → Option E} {deed : σ → ε → Option (Deed N E K)}

variable (kind step ok I shelf deed) in
/-- Each step is the deed its event names, or changes nothing on the shelf. -/
structure Tends : Prop where
  invariant : ∀ s e s', I s → ok s e → step s e = some s' → I s'
  deeds : ∀ s e s', I s → ok s e → step s e = some s' →
    shelf s' = shelf s ∨ ∃ d, deed s e = some d ∧ enact kind (shelf s) d = some (shelf s')

/-- An entry stays under its name until an event's deed takes it away. -/
theorem tends_stays (h : Tends kind step ok I shelf deed) {n : N} {a : E} {s t : σ} (hs : I s)
    (ha : shelf s n = some a)
    (run : Reached step (fun s e => ok s e ∧ ∀ k, deed s e ≠ some (.take n k)) s t) :
    shelf t n = some a := by
  refine (reached_invariant (I := fun t => I t ∧ shelf t n = some a) ⟨hs,ha⟩ ?_ run).2
  rintro u e u' ⟨hu,hn⟩ ⟨hok,htake⟩ hx
  refine ⟨h.invariant u e u' hu hok hx,?_⟩
  rcases h.deeds u e u' hu hok hx with hsame | ⟨d,hd,hp⟩
  · rw [hsame,hn]
  · refine enact_stays hp hn fun k hk => htake k ?_
    rw [hd,hk]

end Systems

end Shelf
