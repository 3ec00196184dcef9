import WindCloud.Lib.Program

/-!
# Two programs over one state

The two sides of a connection: programs with vocabularies of their own, each run
by its machine, interleaved over one state. To either side the steps of the
other one are disturbances.
-/

set_option autoImplicit false

namespace Effect

variable {Op₁ Op₂ : Type} {Res₁ : Op₁ → Type} {Res₂ : Op₂ → Type} {ι₁ ι₂ σ C₁ C₂ α β : Type}

structure Duet (Op₁ : Type) (Res₁ : Op₁ → Type) (Op₂ : Type) (Res₂ : Op₂ → Type) (σ α β : Type) where
  left : Program Op₁ Res₁ α
  right : Program Op₂ Res₂ β
  state : σ

namespace Duet

variable (m₁ : Machine Op₁ Res₁ ι₁ σ C₁) (m₂ : Machine Op₂ Res₂ ι₂ σ C₂) (i₁ : ι₁) (i₂ : ι₂)

/-- A run all of whose steps are permitted in the state they start from. -/
inductive Run (ok₁ : Op₁ → σ → C₁ → Prop) (ok₂ : Op₂ → σ → C₂ → Prop) :
    Duet Op₁ Res₁ Op₂ Res₂ σ α β → Duet Op₁ Res₁ Op₂ Res₂ σ α β → Prop
  | refl (P : Duet Op₁ Res₁ Op₂ Res₂ σ α β) : Run ok₁ ok₂ P P
  | left {P Q : Duet Op₁ Res₁ Op₂ Res₂ σ α β} {o : Op₁} {k : Res₁ o → Program Op₁ Res₁ α}
      {c : C₁} {r : Res₁ o} {s : σ} (run : Run ok₁ ok₂ P Q) (next : Q.left = .op o k)
      (permitted : ok₁ o Q.state c) (exec : m₁.exec o i₁ Q.state c = some (r,s)) :
      Run ok₁ ok₂ P ⟨k r,Q.right,s⟩
  | right {P Q : Duet Op₁ Res₁ Op₂ Res₂ σ α β} {o : Op₂} {k : Res₂ o → Program Op₂ Res₂ β}
      {c : C₂} {r : Res₂ o} {s : σ} (run : Run ok₁ ok₂ P Q) (next : Q.right = .op o k)
      (permitted : ok₂ o Q.state c) (exec : m₂.exec o i₂ Q.state c = some (r,s)) :
      Run ok₁ ok₂ P ⟨Q.left,k r,s⟩

/-- A schedule replayed; its entries say whose turn it is, and each step is
checked in the state it starts from. -/
def replay (check₁ : Op₁ → σ → C₁ → Bool) (check₂ : Op₂ → σ → C₂ → Bool) :
    List (C₁ ⊕ C₂) → Duet Op₁ Res₁ Op₂ Res₂ σ α β → Option (Duet Op₁ Res₁ Op₂ Res₂ σ α β)
  | [], P => some P
  | .inl c::rest, P =>
    match P.left with
    | .ret _ => none
    | .op o k =>
      if check₁ o P.state c then
        match m₁.exec o i₁ P.state c with
        | none => none
        | some (r,s) => replay check₁ check₂ rest ⟨k r,P.right,s⟩
      else none
  | .inr c::rest, P =>
    match P.right with
    | .ret _ => none
    | .op o k =>
      if check₂ o P.state c then
        match m₂.exec o i₂ P.state c with
        | none => none
        | some (r,s) => replay check₁ check₂ rest ⟨P.left,k r,s⟩
      else none

variable {m₁ m₂ i₁ i₂} {ok₁ : Op₁ → σ → C₁ → Prop} {ok₂ : Op₂ → σ → C₂ → Prop}
  {P P' Q : Duet Op₁ Res₁ Op₂ Res₂ σ α β}

theorem run_trans (h : Run m₁ m₂ i₁ i₂ ok₁ ok₂ P Q) (h' : Run m₁ m₂ i₁ i₂ ok₁ ok₂ Q P') :
    Run m₁ m₂ i₁ i₂ ok₁ ok₂ P P' := by
  induction h' with
  | refl => exact h
  | left _ next permitted exec ih => exact .left ih next permitted exec
  | right _ next permitted exec ih => exact .right ih next permitted exec

theorem replay_run {check₁ : Op₁ → σ → C₁ → Bool} {check₂ : Op₂ → σ → C₂ → Bool}
    (sched : List (C₁ ⊕ C₂)) (h : replay m₁ m₂ i₁ i₂ check₁ check₂ sched P = some P') :
    Run m₁ m₂ i₁ i₂ (fun o s c => check₁ o s c = true) (fun o s c => check₂ o s c = true) P P' := by
  induction sched generalizing P with
  | nil =>
    obtain rfl : P = P' := by simpa [replay] using h
    exact .refl P
  | cons c rest ih =>
    cases c with
    | inl c =>
      cases hp : P.left with
      | ret a => simp [replay,hp] at h
      | op o k =>
        by_cases hc : check₁ o P.state c = true
        · cases hx : m₁.exec o i₁ P.state c with
          | none => simp [replay,hp,hc,hx] at h
          | some rs =>
            obtain ⟨r,s⟩ := rs
            exact run_trans (.left (.refl P) hp hc hx) (ih (by simpa [replay,hp,hc,hx] using h))
        · simp [replay,hp,hc] at h
    | inr c =>
      cases hp : P.right with
      | ret a => simp [replay,hp] at h
      | op o k =>
        by_cases hc : check₂ o P.state c = true
        · cases hx : m₂.exec o i₂ P.state c with
          | none => simp [replay,hp,hc,hx] at h
          | some rs =>
            obtain ⟨r,s⟩ := rs
            exact run_trans (.right (.refl P) hp hc hx) (ih (by simpa [replay,hp,hc,hx] using h))
        · simp [replay,hp,hc] at h

theorem run_mono {ok₁' : Op₁ → σ → C₁ → Prop} {ok₂' : Op₂ → σ → C₂ → Prop}
    (h₁ : ∀ o s c, ok₁ o s c → ok₁' o s c) (h₂ : ∀ o s c, ok₂ o s c → ok₂' o s c)
    (h : Run m₁ m₂ i₁ i₂ ok₁ ok₂ P Q) : Run m₁ m₂ i₁ i₂ ok₁' ok₂' P Q := by
  induction h with
  | refl => exact .refl _
  | left _ next permitted exec ih => exact .left ih next (h₁ _ _ _ permitted) exec
  | right _ next permitted exec ih => exact .right ih next (h₂ _ _ _ permitted) exec

theorem run_kept {I : σ → Prop} (hI : ∀ Q, Run m₁ m₂ i₁ i₂ ok₁ ok₂ P Q → I Q.state)
    (h : Run m₁ m₂ i₁ i₂ ok₁ ok₂ P P') :
    Run m₁ m₂ i₁ i₂ (fun o s c => ok₁ o s c ∧ ∀ r s', m₁.exec o i₁ s c = some (r,s') → I s')
      (fun o s c => ok₂ o s c ∧ ∀ r s', m₂.exec o i₂ s c = some (r,s') → I s') P P' := by
  induction h with
  | refl => exact .refl _
  | left run next permitted exec ih =>
    refine .left ih next ⟨permitted,fun r s' hx => ?_⟩ exec
    obtain ⟨rfl,rfl⟩ := Prod.mk.inj (Option.some.inj (exec.symm.trans hx))
    exact hI _ (.left run next permitted exec)
  | right run next permitted exec ih =>
    refine .right ih next ⟨permitted,fun r s' hx => ?_⟩ exec
    obtain ⟨rfl,rfl⟩ := Prod.mk.inj (Option.some.inj (exec.symm.trans hx))
    exact hI _ (.right run next permitted exec)

theorem left_guarded {R : σ → σ → Prop} {G : Op₁ → σ → Prop} {Q : α → σ → Prop}
    (hrefl : ∀ s, R s s) (htrans : ∀ s t u, R s t → R t u → R s u)
    (hother : ∀ o s c r s', ok₂ o s c → m₂.exec o i₂ s c = some (r,s') → R s s')
    (hg : m₁.disturbed.guarded (Machine.Disturbance R ok₁) i₁ G P.left Q P.state)
    (run : Run m₁ m₂ i₁ i₂ ok₁ ok₂ P P') :
    ∃ s, R s P'.state ∧ m₁.disturbed.guarded (Machine.Disturbance R ok₁) i₁ G P'.left Q s := by
  induction run with
  | refl => exact ⟨_,hrefl _,hg⟩
  | @left S o k c r s' _ next permitted exec ih =>
    obtain ⟨s,hs,hsg⟩ := ih
    rw [next] at hsg
    exact ⟨s',hrefl _,hsg.2 (S.state,c) r s' ⟨hs,permitted⟩ exec⟩
  | @right S o k c r s' _ next permitted exec ih =>
    obtain ⟨s,hs,hsg⟩ := ih
    exact ⟨s,htrans _ _ _ hs (hother o S.state c r s' permitted exec),hsg⟩

def swap (P : Duet Op₁ Res₁ Op₂ Res₂ σ α β) : Duet Op₂ Res₂ Op₁ Res₁ σ β α :=
  ⟨P.right,P.left,P.state⟩

theorem run_swap (h : Run m₁ m₂ i₁ i₂ ok₁ ok₂ P P') :
    Run m₂ m₁ i₂ i₁ ok₂ ok₁ P.swap P'.swap := by
  induction h with
  | refl => exact .refl _
  | left _ next permitted exec ih => exact .right ih next permitted exec
  | right _ next permitted exec ih => exact .left ih next permitted exec

theorem right_guarded {R : σ → σ → Prop} {G : Op₂ → σ → Prop} {Q : β → σ → Prop}
    (hrefl : ∀ s, R s s) (htrans : ∀ s t u, R s t → R t u → R s u)
    (hother : ∀ o s c r s', ok₁ o s c → m₁.exec o i₁ s c = some (r,s') → R s s')
    (hg : m₂.disturbed.guarded (Machine.Disturbance R ok₂) i₂ G P.right Q P.state)
    (run : Run m₁ m₂ i₁ i₂ ok₁ ok₂ P P') :
    ∃ s, R s P'.state ∧ m₂.disturbed.guarded (Machine.Disturbance R ok₂) i₂ G P'.right Q s :=
  left_guarded (P := P.swap) hrefl htrans hother hg (run_swap run)

end Duet

end Effect
