import Mathlib.Algebra.BigOperators.Group.Finset.Basic
import Mathlib.Data.Fintype.BigOperators
import WindCloud.Lib.Program

/-!
# Interleaved programs and proof outlines

Any family of programs runs over one shared state; a step performs the next
operation of one of them. An outline annotates a single program with labels:
each of its operations, started under its label from a state satisfying the
invariant over all labels, leads to a state satisfying the invariant under a
new label. Outlines of all programs together give the invariant in every
reachable state.
-/

set_option autoImplicit false

namespace Effect
open Function

variable {Op : Type} {Res : Op → Type} {ι σ C L γ α β : Type}

structure Pool (Op : Type) (Res : Op → Type) (ι σ α : Type) where
  progs : ι → Program Op Res α
  state : σ

namespace Pool

variable [DecidableEq ι] (m : Machine Op Res ι σ C)

section Replay

variable (check : ι → Op → σ → C → Bool)

def step (P : Pool Op Res ι σ α) (i : ι) (c : C) : Option (Pool Op Res ι σ α) :=
  match P.progs i with
  | .ret _ => none
  | .op o k =>
    if check i o P.state c then
      match m.exec o i P.state c with
      | none => none
      | some (r,s) => some ⟨update P.progs i (k r),s⟩
    else none

/-- A schedule replayed, each step checked in the state it starts from. -/
def replay : List (ι × C) → Pool Op Res ι σ α → Option (Pool Op Res ι σ α)
  | [], P => some P
  | (i,c)::rest, P =>
    match P.step m check i c with
    | none => none
    | some Q => replay rest Q

end Replay

/-- A run all of whose steps are permitted in the state they start from. -/
inductive Run (ok : ι → Op → σ → C → Prop) : Pool Op Res ι σ α → Pool Op Res ι σ α → Prop
  | refl (P : Pool Op Res ι σ α) : Run ok P P
  | step {P Q : Pool Op Res ι σ α} {i : ι} {o : Op} {k : Res o → Program Op Res α} {c : C}
      {r : Res o} {s : σ} (run : Run ok P Q) (next : Q.progs i = .op o k)
      (permitted : ok i o Q.state c) (exec : m.exec o i Q.state c = some (r,s)) :
      Run ok P ⟨update Q.progs i (k r),s⟩

variable {m}

theorem run_trans {ok : ι → Op → σ → C → Prop} {P Q R : Pool Op Res ι σ α}
    (h : Run m ok P Q) (h' : Run m ok Q R) : Run m ok P R := by
  induction h' with
  | refl => exact h
  | step _ next permitted exec ih => exact .step ih next permitted exec

theorem run_mono {ok ok' : ι → Op → σ → C → Prop} {P Q : Pool Op Res ι σ α}
    (himp : ∀ i o s c, ok i o s c → ok' i o s c) (h : Run m ok P Q) : Run m ok' P Q := by
  induction h with
  | refl => exact .refl _
  | step _ next permitted exec ih => exact .step ih next (himp _ _ _ _ permitted) exec

theorem run_agrees {m' : Machine Op Res ι σ C} {ok : ι → Op → σ → C → Prop}
    {P Q : Pool Op Res ι σ α}
    (hm : ∀ o i s c, ok i o s c → m.exec o i s c = m'.exec o i s c) (h : Run m ok P Q) :
    Run m' ok P Q := by
  induction h with
  | refl => exact .refl _
  | step _ next permitted exec ih =>
    exact .step ih next permitted ((hm _ _ _ _ permitted).symm.trans exec)

theorem step_run {check : ι → Op → σ → C → Bool} {P Q : Pool Op Res ι σ α} {i : ι} {c : C}
    (h : P.step m check i c = some Q) : Run m (fun i o s c => check i o s c = true) P Q := by
  unfold step at h
  cases hp : P.progs i with
  | ret a => simp [hp] at h
  | op o k =>
    by_cases hc : check i o P.state c = true
    · cases hx : m.exec o i P.state c with
      | none => simp [hp,hc,hx] at h
      | some rs =>
        obtain ⟨r,s⟩ := rs
        obtain rfl : ⟨update P.progs i (k r),s⟩ = Q := by simpa [hp,hc,hx] using h
        exact .step (.refl P) hp hc hx
    · simp [hp,hc] at h

theorem replay_run {check : ι → Op → σ → C → Bool} (sched : List (ι × C))
    {P Q : Pool Op Res ι σ α} (h : replay m check sched P = some Q) :
    Run m (fun i o s c => check i o s c = true) P Q := by
  induction sched generalizing P with
  | nil =>
    obtain rfl : P = Q := by simpa [replay] using h
    exact .refl P
  | cons e rest ih =>
    obtain ⟨i,c⟩ := e
    cases hs : P.step m check i c with
    | none => simp [replay,hs] at h
    | some R => exact run_trans (step_run hs) (ih (by simpa [replay,hs] using h))

/-- To one program, the steps of the others are disturbances: what it is
guarded with against them holds all through a run. -/
theorem guarded_run {ok : ι → Op → σ → C → Prop} {R : σ → σ → Prop} {i : ι} {G : Op → σ → Prop}
    {Q : α → σ → Prop} (hrefl : ∀ s, R s s) (htrans : ∀ s t u, R s t → R t u → R s u)
    (hother : ∀ j o s c r s', j ≠ i → ok j o s c → m.exec o j s c = some (r,s') → R s s')
    {P P' : Pool Op Res ι σ α}
    (hg : m.disturbed.guarded (Machine.Disturbance R (ok i)) i G (P.progs i) Q P.state)
    (run : Run m ok P P') :
    ∃ s, R s P'.state ∧
      m.disturbed.guarded (Machine.Disturbance R (ok i)) i G (P'.progs i) Q s := by
  induction run with
  | refl => exact ⟨P.state,hrefl _,hg⟩
  | @step S j o k c r s' _ next permitted exec ih =>
    obtain ⟨s,hs,hsg⟩ := ih
    by_cases hij : j = i
    · subst hij
      rw [next] at hsg
      refine ⟨s',hrefl _,?_⟩
      simpa using hsg.2 (S.state,c) r s' ⟨hs,permitted⟩ exec
    · refine ⟨s,htrans _ _ _ hs (hother j o S.state c r s' hij permitted exec),?_⟩
      simpa [Ne.symm hij] using hsg

end Pool

section Outlines

variable [DecidableEq ι] (m : Machine Op Res ι σ C) (ok : ι → Op → σ → C → Prop)
  (Inv : (ι → L) → σ → Prop) (i : ι)

/-- The program of agent `i`, started under label `ℓ`, keeps the invariant at
each of its steps and ends under a label satisfying `Q`. -/
def Outline : Program Op Res α → (L → α → Prop) → L → Prop
  | .ret a, Q, ℓ => Q ℓ a
  | .op o k, Q, ℓ => ∀ Λ s c r s', Λ i = ℓ → Inv Λ s → ok i o s c →
      m.exec o i s c = some (r,s') →
      ∃ ℓ', Inv (update Λ i ℓ') s' ∧ Outline (k r) Q ℓ'

variable {m ok Inv i}

theorem outline_mono {p : Program Op Res α} {Q Q' : L → α → Prop} {ℓ : L}
    (hq : ∀ ℓ a, Q ℓ a → Q' ℓ a) (h : Outline m ok Inv i p Q ℓ) :
    Outline m ok Inv i p Q' ℓ := by
  induction p generalizing ℓ with
  | ret a => exact hq ℓ a h
  | op o k ih =>
    intro Λ s c r s' hl hi hok hx
    obtain ⟨ℓ',hi',ho⟩ := h Λ s c r s' hl hi hok hx
    exact ⟨ℓ',hi',ih r ho⟩

theorem outline_bind {p : Program Op Res α} {f : α → Program Op Res β} {Q : L → β → Prop} {ℓ : L}
    (h : Outline m ok Inv i p (fun ℓ' a => Outline m ok Inv i (f a) Q ℓ') ℓ) :
    Outline m ok Inv i (p >>= f) Q ℓ := by
  induction p generalizing ℓ with
  | ret a => exact h
  | op o k ih =>
    intro Λ s c r s' hl hi hok hx
    obtain ⟨ℓ',hi',ho⟩ := h Λ s c r s' hl hi hok hx
    exact ⟨ℓ',hi',ih r ho⟩

theorem outline_frame {o : Op} {k : Res o → Program Op Res α} {Q : L → α → Prop} {ℓ : L}
    (hf : ∀ Λ s c r s', Λ i = ℓ → Inv Λ s → ok i o s c → m.exec o i s c = some (r,s') → Inv Λ s')
    (hk : ∀ r, Outline m ok Inv i (k r) Q ℓ) : Outline m ok Inv i (.op o k) Q ℓ := by
  intro Λ s c r s' hl hi hok hx
  refine ⟨ℓ,?_,hk r⟩
  rw [← hl,update_eq_self]
  exact hf Λ s c r s' hl hi hok hx

theorem outline_step {P : Pool Op Res ι σ α} {Q : ι → L → α → Prop} {Λ : ι → L} {j : ι}
    {o : Op} {k : Res o → Program Op Res α} {c : C} {r : Res o} {s : σ}
    (ho : ∀ i, Outline m ok Inv i (P.progs i) (Q i) (Λ i)) (hi : Inv Λ P.state)
    (next : P.progs j = .op o k) (permitted : ok j o P.state c)
    (exec : m.exec o j P.state c = some (r,s)) :
    ∃ ℓ, Inv (update Λ j ℓ) s ∧
      ∀ i, Outline m ok Inv i (update P.progs j (k r) i) (Q i) (update Λ j ℓ i) := by
  have hj := ho j
  rw [next] at hj
  obtain ⟨ℓ,hi',hk⟩ := hj Λ P.state c r s rfl hi permitted exec
  refine ⟨ℓ,hi',fun i => ?_⟩
  by_cases hij : i = j
  · subst hij
    simpa using hk
  · simpa [hij] using ho i

/-- Outlines for all programs carry the invariant through every permitted run. -/
theorem outline_run {P P' : Pool Op Res ι σ α} {Q : ι → L → α → Prop} {Λ : ι → L}
    (ho : ∀ i, Outline m ok Inv i (P.progs i) (Q i) (Λ i)) (hi : Inv Λ P.state)
    (run : P.Run m ok P') :
    ∃ Λ', Inv Λ' P'.state ∧ ∀ i, Outline m ok Inv i (P'.progs i) (Q i) (Λ' i) := by
  induction run with
  | refl => exact ⟨Λ,hi,ho⟩
  | step _ next permitted exec ih =>
    obtain ⟨Λ',hi',ho'⟩ := ih
    obtain ⟨ℓ,hs,hk⟩ := outline_step ho' hi' next permitted exec
    exact ⟨update Λ' _ ℓ,hs,hk⟩

theorem outline_wlp {p : Program Op Res α} {Q : L → α → Prop} {Λ : ι → L} {s : σ}
    (ho : Outline m ok Inv i p Q (Λ i)) (hi : Inv Λ s) :
    m.wlp (ok i) i p (fun a s' => ∃ ℓ, Inv (update Λ i ℓ) s' ∧ Q ℓ a) s := by
  induction p generalizing Λ s with
  | ret a => exact ⟨Λ i,by rwa [update_eq_self],ho⟩
  | op o k ih =>
    intro c r s' hok hx
    obtain ⟨ℓ,hi',ho'⟩ := ho Λ s c r s' rfl hi hok hx
    have hend := ih r (Λ := update Λ i ℓ) (by rwa [update_self]) hi'
    simpa only [update_idem] using hend

end Outlines

section Recording

variable [DecidableEq ι]

/-- The same machine with a history variable for each agent, computed from the
operations it performed, their replies and the states they started from. -/
def Machine.recorded (m : Machine Op Res ι σ C) (note : (o : Op) → Res o → σ → γ → γ) :
    Machine Op Res ι (σ × (ι → γ)) C where
  exec o i s c := (m.exec o i s.1 c).map fun rs =>
    (rs.1,(rs.2,update s.2 i (note o rs.1 s.1 (s.2 i))))

theorem recorded_agrees {m m' : Machine Op Res ι σ C} {ok : Op → σ → C → Prop}
    (note : (o : Op) → Res o → σ → γ → γ) (h : m.Agrees m' ok) :
    (m.recorded note).Agrees (m'.recorded note) fun o s c => ok o s.1 c := by
  intro o i s c hc
  unfold Machine.recorded
  dsimp only
  rw [h o i s.1 c hc]

theorem recorded_exec {m : Machine Op Res ι σ C} {note : (o : Op) → Res o → σ → γ → γ}
    {o : Op} {i : ι} {s s' : σ × (ι → γ)} {c : C} {r : Res o}
    (h : (m.recorded note).exec o i s c = some (r,s')) :
    m.exec o i s.1 c = some (r,s'.1) ∧ s'.2 = update s.2 i (note o r s.1 (s.2 i)) := by
  obtain ⟨⟨r₁,s₁⟩,hx,he⟩ := Option.map_eq_some_iff.mp h
  obtain ⟨rfl,rfl⟩ : r₁ = r ∧ (s₁,update s.2 i (note o r₁ s.1 (s.2 i))) = s' := by simpa using he
  exact ⟨hx,rfl⟩

end Recording

section Tallies

variable [Fintype ι] [DecidableEq ι]

/-- The number of agents whose label satisfies `f`. -/
def tally (Λ : ι → L) (f : L → Bool) : ℕ := ∑ i, (f (Λ i)).toNat

theorem tally_update (Λ : ι → L) (i : ι) (ℓ : L) (f : L → Bool) :
    tally (update Λ i ℓ) f + (f (Λ i)).toNat = tally Λ f + (f ℓ).toNat := by
  unfold tally
  rw [← Finset.add_sum_erase _ _ (Finset.mem_univ i),
    ← Finset.add_sum_erase Finset.univ (fun j => (f (Λ j)).toNat) (Finset.mem_univ i)]
  have hrest : ∑ j ∈ Finset.univ.erase i, (f (update Λ i ℓ j)).toNat =
      ∑ j ∈ Finset.univ.erase i, (f (Λ j)).toNat :=
    Finset.sum_congr rfl fun j hj => by rw [update_of_ne (Finset.ne_of_mem_erase hj)]
  rw [hrest,update_self]
  omega

theorem tally_same {Λ : ι → L} {i : ι} {ℓ : L} {f : L → Bool} (h : f ℓ = f (Λ i)) :
    tally (update Λ i ℓ) f = tally Λ f := by
  have hsum := tally_update Λ i ℓ f
  rw [h] at hsum
  omega

omit [DecidableEq ι] in
theorem tally_zero (Λ : ι → L) (f : L → Bool) : tally Λ f = 0 ↔ ∀ i, f (Λ i) = false := by
  simp [tally]

omit [DecidableEq ι] in
theorem tally_pos {Λ : ι → L} {f : L → Bool} {i : ι} (h : f (Λ i) = true) : 0 < tally Λ f := by
  refine Nat.pos_of_ne_zero fun hz => ?_
  have hf := (tally_zero Λ f).mp hz i
  rw [h] at hf
  cases hf

end Tallies

end Effect
