import WindCloud.Lib.Pool

/-!
# Programs that take turns

How often a program performs an operation of a kind, and whether it performs
the operation it owes next. A program is carried over to a larger vocabulary by
renaming its operations.
-/

set_option autoImplicit false

namespace Effect

namespace Program

variable {Op Op' : Type} {Res : Op → Type} {Res' : Op' → Type} {κ α β : Type}

/-- The program with `f o` in the place of `o`, whose results are read by `g`. -/
def rename (f : Op → Op') (g : (o : Op) → Res' (f o) → Res o) :
    Program Op Res α → Program Op' Res' α
  | .ret a => .ret a
  | .op o k => .op (f o) fun r => (k (g o r)).rename f g

/-- The program ends with `a` for some results of its operations. -/
def Returns (a : α) : Program Op Res α → Prop
  | .ret b => a = b
  | .op _ k => ∃ r, (k r).Returns a

/-- For some results of its operations the program ends with `a`, having said `ps`. -/
def Emits (tells : Op → Option κ) (ps : List κ) (a : α) : Program Op Res α → Prop
  | .ret b => ps = [] ∧ a = b
  | .op o k => ∃ r qs, ps = (tells o).toList ++ qs ∧ (k r).Emits tells qs a

/-- The operations of an execution with their results, and what it ends with. -/
def Traces (t : List ((o : Op) × Res o)) (a : α) : Program Op Res α → Prop
  | .ret b => t = [] ∧ a = b
  | .op o k => ∃ r t', t = ⟨o,r⟩::t' ∧ (k r).Traces t' a

/-- What the program ends with when its operations have these results. -/
def follow [DecidableEq Op] : Program Op Res α → List ((o : Op) × Res o) → Option α
  | .ret a, [] => some a
  | .op o k, e::t => if h : e.1 = o then (k (h ▸ e.2)).follow t else none
  | _, _ => none

/-- Exactly one `special` operation is performed before the program ends, and
it is `good`. -/
def Once (special good : Op → Prop) : Program Op Res α → Prop
  | .ret _ => False
  | .op o k => (special o ∧ good o ∧ ∀ r, (k r).Uses fun o => ¬special o) ∨
      (¬special o ∧ ∀ r, (k r).Once special good)

/-- Each operation pays what is owed, and `after` says what is owed then; the
program ends without debt. -/
def Follows (needs : Op → Option κ) (after : (o : Op) → Res o → Option κ) :
    Option κ → Program Op Res α → Prop
  | due, .ret _ => due = none
  | due, .op o k => needs o = due ∧ ∀ r, (k r).Follows needs after (after o r)

theorem uses_mono {allowed allowed' : Op → Prop} {p : Program Op Res α}
    (himp : ∀ o, allowed o → allowed' o) (hp : p.Uses allowed) : p.Uses allowed' := by
  induction p with
  | ret a => exact hp
  | op o k ih => exact ⟨himp o hp.1,fun r => ih r (hp.2 r)⟩

theorem returns_bind (p : Program Op Res α) (f : α → Program Op Res β) (b : β)
    (h : (p >>= f).Returns b) : ∃ a, p.Returns a ∧ (f a).Returns b := by
  induction p with
  | ret a => exact ⟨a,rfl,h⟩
  | op o k ih =>
    obtain ⟨r,hr⟩ := h
    obtain ⟨a,ha,hb⟩ := ih r hr
    exact ⟨a,⟨r,ha⟩,hb⟩

section Emissions

variable {tells : Op → Option κ} {ps : List κ} {a : α} {b : β}

theorem emits_returns (p : Program Op Res α) (h : p.Emits tells ps a) : p.Returns a := by
  induction p generalizing ps with
  | ret _ => exact h.2
  | op o k ih =>
    obtain ⟨r,qs,_,hr⟩ := h
    exact ⟨r,ih r hr⟩

theorem returns_emits (tells : Op → Option κ) (p : Program Op Res α) (h : p.Returns a) :
    ∃ ps, p.Emits tells ps a := by
  induction p with
  | ret _ => exact ⟨[],rfl,h⟩
  | op o k ih =>
    obtain ⟨r,hr⟩ := h
    obtain ⟨ps,hps⟩ := ih r hr
    exact ⟨_,r,ps,rfl,hps⟩

theorem emits_bind (p : Program Op Res α) (f : α → Program Op Res β)
    (h : (p >>= f).Emits tells ps b) :
    ∃ a qs rs, ps = qs ++ rs ∧ p.Emits tells qs a ∧ (f a).Emits tells rs b := by
  induction p generalizing ps with
  | ret a => exact ⟨a,[],ps,rfl,⟨rfl,rfl⟩,h⟩
  | op o k ih =>
    obtain ⟨r,qs,rfl,hr⟩ := h
    obtain ⟨a,qs,rs,rfl,ha,hb⟩ := ih r hr
    exact ⟨a,(tells o).toList ++ qs,rs,(List.append_assoc _ _ _).symm,⟨r,qs,rfl,ha⟩,hb⟩

theorem silent_emits (p : Program Op Res α) (hp : p.Uses fun o => tells o = none)
    (h : p.Emits tells ps a) : ps = [] := by
  induction p generalizing ps with
  | ret _ => exact h.1
  | op o k ih =>
    obtain ⟨r,qs,rfl,hr⟩ := h
    rw [hp.1,ih r (hp.2 r) hr]
    rfl

theorem silent_emits_bind (p : Program Op Res α) (f : α → Program Op Res β)
    (hp : p.Uses fun o => tells o = none) (h : (p >>= f).Emits tells ps b) :
    ∃ a, p.Returns a ∧ (f a).Emits tells ps b := by
  obtain ⟨a,qs,rs,rfl,ha,hb⟩ := emits_bind p f h
  rw [silent_emits p hp ha] at *
  exact ⟨a,emits_returns p ha,hb⟩

theorem once_emits {special good : Op → Prop} (hs : ∀ o, ¬special o → tells o = none)
    (p : Program Op Res α) (hp : p.Once special good) (h : p.Emits tells ps a) :
    ∃ o, special o ∧ good o ∧ ps = (tells o).toList := by
  induction p generalizing ps with
  | ret _ => exact hp.elim
  | op o k ih =>
    obtain ⟨r,qs,rfl,hr⟩ := h
    rcases hp with ⟨hspecial,hgood,hk⟩ | ⟨hno,hk⟩
    · have hsilent : qs = [] :=
        silent_emits (k r) (uses_mono (fun o => hs o) (hk r)) hr
      exact ⟨o,hspecial,hgood,by rw [hsilent,List.append_nil]⟩
    · rw [hs o hno]
      exact ih r (hk r) hr

theorem traces_emits (p : Program Op Res α) {t : List ((o : Op) × Res o)} (h : p.Traces t a) :
    p.Emits tells (t.filterMap fun e => tells e.1) a := by
  induction p generalizing t with
  | ret _ =>
    obtain ⟨rfl,rfl⟩ := h
    exact ⟨rfl,rfl⟩
  | op o k ih =>
    obtain ⟨r,t',rfl,hr⟩ := h
    refine ⟨r,_,?_,ih r hr⟩
    cases ho : tells o <;> simp [ho]

theorem follow_traces [DecidableEq Op] (p : Program Op Res α) {t : List ((o : Op) × Res o)}
    (h : p.follow t = some a) : p.Traces t a := by
  induction p generalizing t with
  | ret b =>
    cases t with
    | nil => exact ⟨rfl,(Option.some.inj h).symm⟩
    | cons e t => cases h
  | op o k ih =>
    cases t with
    | nil => cases h
    | cons e t =>
      obtain ⟨o',r⟩ := e
      simp only [follow] at h
      split at h
      · rename_i he
        subst he
        exact ⟨r,t,rfl,ih r h⟩
      · cases h

end Emissions

section Once

variable {special good : Op → Prop}

theorem once_bind (p : Program Op Res α) (f : α → Program Op Res β) (hp : p.Once special good)
    (hf : ∀ a, (f a).Uses fun o => ¬special o) : (p >>= f).Once special good := by
  induction p with
  | ret a => exact hp.elim
  | op o k ih =>
    rcases hp with ⟨hs,hg,hk⟩ | ⟨hs,hk⟩
    · exact .inl ⟨hs,hg,fun r => uses_bind (k r) f (hk r) hf⟩
    · exact .inr ⟨hs,fun r => ih r (hk r)⟩

theorem uses_once (p : Program Op Res α) (f : α → Program Op Res β)
    (hp : p.Uses fun o => ¬special o) (hf : ∀ a, (f a).Once special good) :
    (p >>= f).Once special good := by
  induction p with
  | ret a => exact hf a
  | op o k ih => exact .inr ⟨hp.1,fun r => ih r (hp.2 r)⟩

end Once

section Follows

variable {needs : Op → Option κ} {after : (o : Op) → Res o → Option κ}

theorem follows_bind (p : Program Op Res α) (f : α → Program Op Res β) (due : Option κ)
    (hp : p.Follows needs after due) (hf : ∀ a, (f a).Follows needs after none) :
    (p >>= f).Follows needs after due := by
  induction p generalizing due with
  | ret a =>
    obtain rfl : due = none := hp
    exact hf a
  | op o k ih => exact ⟨hp.1,fun r => ih r _ (hp.2 r)⟩

/-- Operations that owe nothing. -/
theorem follows_uses {allowed : Op → Prop} (hn : ∀ o, allowed o → needs o = none)
    (ha : ∀ o r, allowed o → after o r = none) {p : Program Op Res α} (hp : p.Uses allowed) :
    p.Follows needs after none := by
  induction p with
  | ret a => rfl
  | op o k ih =>
    refine ⟨hn o hp.1,fun r => ?_⟩
    rw [ha o r hp.1]
    exact ih r (hp.2 r)

theorem follows_rename {f : Op → Op'} {g : (o : Op) → Res' (f o) → Res o}
    {needs' : Op' → Option κ} {after' : (o : Op') → Res' o → Option κ}
    (hn : ∀ o, needs' (f o) = needs o) (ha : ∀ o r, after' (f o) r = after o (g o r))
    {p : Program Op Res α} {due : Option κ} (hp : p.Follows needs after due) :
    (p.rename f g).Follows needs' after' due := by
  induction p generalizing due with
  | ret a => exact hp
  | op o k ih =>
    refine ⟨(hn o).trans hp.1,fun r => ?_⟩
    rw [ha o r]
    exact ih _ (hp.2 _)

end Follows

end Program

namespace Machine

variable {Op : Type} {Res : Op → Type} {ι σ C κ α : Type}

theorem run_returns {m : Machine Op Res ι σ C} {i : ι} (p : Program Op Res α) {s s' : σ}
    {cs : List C} {a : α} (h : m.run i p s cs = some (a,s')) : p.Returns a := by
  induction p generalizing s cs with
  | ret b =>
    cases cs with
    | nil => exact (Prod.mk.inj (Option.some.inj h)).1.symm
    | cons _ _ => cases h
  | op o k ih =>
    cases cs with
    | nil => cases h
    | cons c cs =>
      simp only [run] at h
      split at h
      · cases h
      · exact ⟨_,ih _ h⟩

variable [DecidableEq ι]

theorem recorded_emits {m : Machine Op Res ι σ C} {tells : Op → Option κ}
    {note : (o : Op) → Res o → σ → List κ → List κ} {i : ι}
    (hnote : ∀ o r s ps, ∃ qs, qs.Sublist (tells o).toList ∧ note o r s ps = ps ++ qs)
    (p : Program Op Res α) {s s' : σ × (ι → List κ)} {cs : List C} {a : α}
    (h : (m.recorded note).run i p s cs = some (a,s')) :
    ∃ ps qs, p.Emits tells ps a ∧ qs.Sublist ps ∧ s'.2 i = s.2 i ++ qs := by
  induction p generalizing s cs with
  | ret b =>
    cases cs with
    | nil =>
      obtain ⟨rfl,rfl⟩ := Prod.mk.inj (Option.some.inj h)
      exact ⟨[],[],⟨rfl,rfl⟩,List.Sublist.refl _,(List.append_nil _).symm⟩
    | cons _ _ => cases h
  | op o k ih =>
    cases cs with
    | nil => cases h
    | cons c cs =>
      simp only [run] at h
      split at h
      · cases h
      · rename_i r s₁ hx
        obtain ⟨ps,qs,hp,hsub,he⟩ := ih r h
        obtain ⟨heard,hheard,hn⟩ := hnote o r s.1 (s.2 i)
        have hs₁ := (recorded_exec hx).2
        refine ⟨(tells o).toList ++ ps,heard ++ qs,⟨r,ps,rfl,hp⟩,hheard.append hsub,?_⟩
        rw [he,hs₁,Function.update_self,hn,List.append_assoc]

theorem recorded_run {m : Machine Op Res ι σ C} {γ : Type}
    {note : (o : Op) → Res o → σ → γ → γ} {i : ι} (p : Program Op Res α) {s s' : σ × (ι → γ)}
    {cs : List C} {a : α} (h : (m.recorded note).run i p s cs = some (a,s')) :
    m.run i p s.1 cs = some (a,s'.1) := by
  induction p generalizing s cs with
  | ret b =>
    cases cs with
    | nil =>
      obtain ⟨rfl,rfl⟩ := Prod.mk.inj (Option.some.inj h)
      rfl
    | cons _ _ => cases h
  | op o k ih =>
    cases cs with
    | nil => cases h
    | cons c cs =>
      simp only [run] at h ⊢
      split at h
      · cases h
      · rename_i r s₁ hx
        rw [(recorded_exec hx).1]
        exact ih r h

end Machine

end Effect
