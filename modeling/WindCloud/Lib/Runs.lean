import Mathlib.Logic.Basic

/-!
# Runs of a transition system

The states a system reaches by permitted steps, and runs replayed from a list
of events.
-/

set_option autoImplicit false

namespace Runs

variable {σ ε : Type} (step : σ → ε → Option σ) (ok : σ → ε → Prop)

inductive Reached (s : σ) : σ → Prop
  | start : Reached s s
  | next {t t' : σ} {e : ε} (run : Reached s t) (permitted : ok t e) (taken : step t e = some t') :
      Reached s t'

/-- A run with its events in their order. -/
inductive Traced (s : σ) : List ε → σ → Prop
  | start : Traced s [] s
  | next {t t' : σ} {es : List ε} {e : ε} (run : Traced s es t) (permitted : ok t e)
      (taken : step t e = some t') : Traced s (es ++ [e]) t'

/-- The events one after the other, each of them checked. -/
def replay (check : σ → ε → Bool) : List ε → σ → Option σ
  | [], s => some s
  | e::events, s =>
    if check s e then
      match step s e with
      | none => none
      | some s' => replay check events s'
    else none

variable {step ok}

theorem reached_invariant {I : σ → Prop} {s t : σ} (start : I s)
    (kept : ∀ t e t', I t → ok t e → step t e = some t' → I t') (run : Reached step ok s t) :
    I t := by
  induction run with
  | start => exact start
  | next _ permitted taken ih => exact kept _ _ _ ih permitted taken

theorem reached_trans {s t u : σ} (h : Reached step ok s t) (h' : Reached step ok t u) :
    Reached step ok s u := by
  induction h' with
  | start => exact h
  | next _ permitted taken ih => exact .next ih permitted taken

theorem reached_mono {ok' : σ → ε → Prop} {s t : σ} (himp : ∀ s e, ok s e → ok' s e)
    (h : Reached step ok s t) : Reached step ok' s t := by
  induction h with
  | start => exact .start
  | next _ permitted taken ih => exact .next ih (himp _ _ permitted) taken

theorem traced_invariant {I : List ε → σ → Prop} {s t : σ} {es : List ε} (start : I [] s)
    (kept : ∀ es t e t', I es t → ok t e → step t e = some t' → I (es ++ [e]) t')
    (run : Traced step ok s es t) : I es t := by
  induction run with
  | start => exact start
  | next _ permitted taken ih => exact kept _ _ _ _ ih permitted taken

theorem traced_cons {s s' t : σ} {e : ε} {es : List ε} (hok : ok s e) (hx : step s e = some s')
    (h : Traced step ok s' es t) : Traced step ok s (e::es) t := by
  induction h with
  | start => exact .next .start hok hx
  | next _ permitted taken ih => exact .next ih permitted taken

theorem traced_mono {ok' : σ → ε → Prop} {s t : σ} {es : List ε} (himp : ∀ s e, ok s e → ok' s e)
    (h : Traced step ok s es t) : Traced step ok' s es t := by
  induction h with
  | start => exact .start
  | next _ permitted taken ih => exact .next ih (himp _ _ permitted) taken

theorem traced_reached {s t : σ} {es : List ε} (h : Traced step ok s es t) :
    Reached step ok s t := by
  induction h with
  | start => exact .start
  | next _ permitted taken ih => exact .next ih permitted taken

theorem replay_listed {check : σ → ε → Bool} {events : List ε} {s t : σ}
    (h : replay step check events s = some t) :
    Traced step (fun s e => check s e = true ∧ e ∈ events) s events t := by
  induction events generalizing s with
  | nil =>
    obtain rfl : s = t := by simpa [replay] using h
    exact .start
  | cons e events ih =>
    by_cases hc : check s e = true
    · cases hx : step s e with
      | none => simp [replay,hc,hx] at h
      | some s' =>
        have hrest := ih (by simpa [replay,hc,hx] using h)
        exact traced_cons ⟨hc,List.mem_cons_self⟩ hx
          (traced_mono (fun _ _ h => ⟨h.1,List.mem_cons_of_mem _ h.2⟩) hrest)
    · simp [replay,hc] at h

theorem replay_traced {check : σ → ε → Bool} {events : List ε} {s t : σ}
    (h : replay step check events s = some t) :
    Traced step (fun s e => check s e = true) s events t :=
  traced_mono (fun _ _ h => h.1) (replay_listed h)

theorem replay_reached {check : σ → ε → Bool} {events : List ε} {s t : σ}
    (h : replay step check events s = some t) :
    Reached step (fun s e => check s e = true) s t :=
  traced_reached (replay_traced h)

theorem replay_permitted {check : σ → ε → Bool} {events : List ε} {s t : σ}
    (hok : ∀ s, ∀ e ∈ events, ok s e) (h : replay step check events s = some t) :
    Reached step ok s t :=
  reached_mono (fun s e h => hok s e h.2) (traced_reached (replay_listed h))

theorem traced_within {step' : σ → ε → Option σ}
    (hstep : ∀ s e s', step s e = some s' → step' s e = some s') {s t : σ} {es : List ε}
    (h : Traced step ok s es t) : Traced step' ok s es t := by
  induction h with
  | start => exact .start
  | next _ permitted taken ih => exact .next ih permitted (hstep _ _ _ taken)

end Runs
