import Mathlib.Logic.Function.Basic
import Mathlib.Data.List.Basic

/-!
# Programs over atomic operations

A program is a finite tree of operations, each node waiting for the reply of
one operation. A machine says which replies an operation may have in a state;
the reply is selected by an outcome, so that a machine is a computable
function and a list of outcomes replays an execution. Weakest preconditions
are taken over a permitted set of outcomes.
-/

set_option autoImplicit false

namespace Effect

universe u

inductive Program (Op : Type) (Res : Op → Type) (α : Type u) : Type u
  | ret (a : α)
  | op (o : Op) (k : Res o → Program Op Res α)

namespace Program

variable {Op : Type} {Res : Op → Type} {α β γ : Type}

def bind : Program Op Res α → (α → Program Op Res β) → Program Op Res β
  | .ret a, f => f a
  | .op o k, f => .op o fun r => (k r).bind f

instance : Monad (Program Op Res) where
  pure := .ret
  bind := bind

def perform (o : Op) : Program Op Res (Res o) := .op o .ret

@[simp] theorem pure_eq (a : α) : (pure a : Program Op Res α) = .ret a := rfl

@[simp] theorem ret_bind (a : α) (f : α → Program Op Res β) : Program.ret a >>= f = f a := rfl

@[simp] theorem op_bind (o : Op) (k : Res o → Program Op Res α) (f : α → Program Op Res β) :
    Program.op o k >>= f = .op o fun r => k r >>= f := rfl

@[simp] theorem perform_bind (o : Op) (f : Res o → Program Op Res β) :
    perform o >>= f = .op o f := rfl

theorem bind_ret (p : Program Op Res α) : p >>= Program.ret = p := by
  induction p with
  | ret a => rfl
  | op o k ih =>
    rw [op_bind]
    congr 1
    funext r
    exact ih r

theorem bind_bind (p : Program Op Res α) (f : α → Program Op Res β)
    (g : β → Program Op Res γ) : (p >>= f) >>= g = p >>= fun a => f a >>= g := by
  induction p with
  | ret a => rfl
  | op o k ih =>
    simp only [op_bind]
    congr 1
    funext r
    exact ih r

instance : LawfulMonad (Program Op Res) :=
  LawfulMonad.mk' _ bind_ret (fun _ _ => rfl) bind_bind

/-- Every operation the program can ever issue satisfies `allowed`. -/
def Uses (allowed : Op → Prop) : Program Op Res α → Prop
  | .ret _ => True
  | .op o k => allowed o ∧ ∀ r, (k r).Uses allowed

theorem uses_bind {allowed : Op → Prop} (p : Program Op Res α) (f : α → Program Op Res β)
    (hp : p.Uses allowed) (hf : ∀ a, (f a).Uses allowed) : (p >>= f).Uses allowed := by
  induction p with
  | ret a => exact hf a
  | op o k ih => exact ⟨hp.1,fun r => ih r (hp.2 r)⟩

theorem uses_of_bind {allowed : Op → Prop} (p : Program Op Res α) (f : α → Program Op Res β)
    (h : (p >>= f).Uses allowed) : p.Uses allowed := by
  induction p with
  | ret a => trivial
  | op o k ih => exact ⟨h.1,fun r => ih r (h.2 r)⟩

end Program

/-- `exec o i s c` is the reply and the next state when agent `i` performs `o`
in state `s` with outcome `c`; `none` when `c` is no outcome of `o` there. -/
structure Machine (Op : Type) (Res : Op → Type) (ι σ C : Type) where
  exec : (o : Op) → ι → σ → C → Option (Res o × σ)

namespace Machine

variable {Op : Type} {Res : Op → Type} {ι σ C α β : Type}

section Execution

variable (m : Machine Op Res ι σ C) (ok : Op → σ → C → Prop) (i : ι)

/-- A complete execution with its list of outcomes, all of them permitted. -/
inductive Exec : Program Op Res α → σ → List C → α → σ → Prop
  | ret (a : α) (s : σ) : Exec (.ret a) s [] a s
  | op {o : Op} {k : Res o → Program Op Res α} {s s₁ s' : σ} {c : C} {cs : List C}
      {r : Res o} {a : α} (permitted : ok o s c) (step : m.exec o i s c = some (r,s₁))
      (rest : Exec (k r) s₁ cs a s') : Exec (.op o k) s (c::cs) a s'

/-- The same execution computed from the outcomes. -/
def run : Program Op Res α → σ → List C → Option (α × σ)
  | .ret a, s, [] => some (a,s)
  | .ret _, _, _::_ => none
  | .op _ _, _, [] => none
  | .op o k, s, c::cs =>
    match m.exec o i s c with
    | none => none
    | some (r,s₁) => run (k r) s₁ cs

/-- The state in which an execution is stopped behind these outcomes. -/
def stopAfter : Program Op Res α → σ → List C → Option σ
  | _, s, [] => some s
  | .ret _, _, _::_ => none
  | .op o k, s, c::cs =>
    match m.exec o i s c with
    | none => none
    | some (r,s₁) => stopAfter (k r) s₁ cs

def wlp : Program Op Res α → (α → σ → Prop) → σ → Prop
  | .ret a, Q, s => Q a s
  | .op o k, Q, s => ∀ c r s', ok o s c → m.exec o i s c = some (r,s') → wlp (k r) Q s'

/-- Some permitted execution ends as `Q` says. -/
def can : Program Op Res α → (α → σ → Prop) → σ → Prop
  | .ret a, Q, s => Q a s
  | .op o k, Q, s => ∃ c r s', ok o s c ∧ m.exec o i s c = some (r,s') ∧ can (k r) Q s'

/-- An execution that stops anywhere, with the state it has reached. -/
inductive Stops : Program Op Res α → σ → σ → Prop
  | here (p : Program Op Res α) (s : σ) : Stops p s s
  | next {o : Op} {k : Res o → Program Op Res α} {s s₁ s' : σ} {c : C} {r : Res o}
      (permitted : ok o s c) (step : m.exec o i s c = some (r,s₁)) (rest : Stops (k r) s₁ s') :
      Stops (.op o k) s s'

/-- `I` holds all along, and what the program returns satisfies `Q`. -/
def always (I : σ → Prop) : Program Op Res α → (α → σ → Prop) → σ → Prop
  | .ret a, Q, s => I s ∧ Q a s
  | .op o k, Q, s => I s ∧ ∀ c r s', ok o s c → m.exec o i s c = some (r,s') → always I (k r) Q s'

/-- An execution that has come to `p'` and goes on there. -/
inductive Reaches : Program Op Res α → σ → Program Op Res α → σ → Prop
  | here (p : Program Op Res α) (s : σ) : Reaches p s p s
  | next {o : Op} {k : Res o → Program Op Res α} {p' : Program Op Res α} {s s₁ s' : σ} {c : C}
      {r : Res o} (permitted : ok o s c) (step : m.exec o i s c = some (r,s₁))
      (rest : Reaches (k r) s₁ p' s') : Reaches (.op o k) s p' s'

/-- How far a list of outcomes takes a program. -/
def advance : Program Op Res α → σ → List C → Option (Program Op Res α × σ)
  | p, s, [] => some (p,s)
  | .ret _, _, _::_ => none
  | .op o k, s, c::cs =>
    match m.exec o i s c with
    | none => none
    | some (r,s₁) => advance (k r) s₁ cs

/-- `G` holds of each operation and the state it starts from. -/
def guarded (G : Op → σ → Prop) : Program Op Res α → (α → σ → Prop) → σ → Prop
  | .ret a, Q, s => Q a s
  | .op o k, Q, s => G o s ∧
    ∀ c r s', ok o s c → m.exec o i s c = some (r,s') → guarded G (k r) Q s'

variable {m ok i}

theorem run_exec {p : Program Op Res α} {s s' : σ} {cs : List C} {a : α}
    (h : m.run i p s cs = some (a,s')) : m.Exec (fun _ _ _ => True) i p s cs a s' := by
  induction p generalizing s cs with
  | ret b =>
    cases cs with
    | nil =>
      obtain ⟨rfl,rfl⟩ : b = a ∧ s = s' := by simpa [run] using h
      exact .ret _ _
    | cons c cs => simp [run] at h
  | op o k ih =>
    cases cs with
    | nil => simp [run] at h
    | cons c cs =>
      cases hx : m.exec o i s c with
      | none => simp [run,hx] at h
      | some rs =>
        obtain ⟨r,s₁⟩ := rs
        exact .op trivial hx (ih r (by simpa [run,hx] using h))

theorem advance_reaches {p p' : Program Op Res α} {s s' : σ} {cs : List C}
    (h : m.advance i p s cs = some (p',s')) : m.Reaches (fun _ _ _ => True) i p s p' s' := by
  induction cs generalizing p s with
  | nil =>
    obtain ⟨rfl,rfl⟩ : p = p' ∧ s = s' := by simpa [advance] using h
    exact .here p s
  | cons c cs ih =>
    cases p with
    | ret a => simp [advance] at h
    | op o k =>
      cases hx : m.exec o i s c with
      | none => simp [advance,hx] at h
      | some rs =>
        obtain ⟨r,s₁⟩ := rs
        exact .next trivial hx (ih (by simpa [advance,hx] using h))

/-- The machine that refuses the outcomes `check` does not permit. -/
def restrict (m : Machine Op Res ι σ C) (check : Op → σ → C → Bool) : Machine Op Res ι σ C where
  exec o i s c := if check o s c then m.exec o i s c else none

theorem restrict_exec {check : Op → σ → C → Bool} {p : Program Op Res α} {s s' : σ} {cs : List C}
    {a : α} (h : (m.restrict check).Exec ok i p s cs a s') :
    m.Exec (fun o s c => check o s c = true) i p s cs a s' := by
  induction h with
  | ret a s => exact .ret a s
  | @op o k s s₁ s' c cs r a _ step _ ih =>
    have hc : check o s c = true := by
      by_contra hc
      simp [restrict,hc] at step
    exact .op hc (by simpa [restrict,hc] using step) ih

/-- Where `ok` permits an outcome the machines do the same. -/
def Agrees (m m' : Machine Op Res ι σ C) (ok : Op → σ → C → Prop) : Prop :=
  ∀ o i s c, ok o s c → m.exec o i s c = m'.exec o i s c

theorem agrees_symm {m' : Machine Op Res ι σ C} (h : m.Agrees m' ok) : m'.Agrees m ok :=
  fun o i s c hc => (h o i s c hc).symm

theorem restrict_agrees {m' : Machine Op Res ι σ C} {check : Op → σ → C → Bool}
    (h : m.Agrees m' fun o s c => check o s c = true) : m.restrict check = m'.restrict check := by
  unfold restrict
  congr 1
  funext o i s c
  split
  · rename_i hc
    exact h o i s c hc
  · rfl

theorem exec_agrees {m' : Machine Op Res ι σ C} (h : m.Agrees m' ok) {p : Program Op Res α}
    {s s' : σ} {cs : List C} {a : α} (hx : m.Exec ok i p s cs a s') : m'.Exec ok i p s cs a s' := by
  induction hx with
  | ret a s => exact .ret a s
  | op permitted step _ ih => exact .op permitted ((h _ _ _ _ permitted).symm.trans step) ih

theorem exec_mono {ok' : Op → σ → C → Prop} {p : Program Op Res α} {s s' : σ} {cs : List C}
    {a : α} (himp : ∀ o s c, ok o s c → ok' o s c) (h : m.Exec ok i p s cs a s') :
    m.Exec ok' i p s cs a s' := by
  induction h with
  | ret a s => exact .ret a s
  | op permitted step _ ih => exact .op (himp _ _ _ permitted) step ih

theorem exec_listed {p : Program Op Res α} {s s' : σ} {cs : List C} {a : α}
    (h : m.Exec ok i p s cs a s') : m.Exec (fun o s c => ok o s c ∧ c ∈ cs) i p s cs a s' := by
  induction h with
  | ret a s => exact .ret a s
  | op permitted step _ ih =>
    refine .op ⟨permitted,List.mem_cons_self⟩ step (exec_mono ?_ ih)
    exact fun _ _ _ h => ⟨h.1,List.mem_cons_of_mem _ h.2⟩

theorem exec_map {p : Program Op Res α} {f : α → β} {s s' : σ} {cs : List C} {b : β}
    (h : m.Exec ok i (p >>= fun a => .ret (f a)) s cs b s') :
    ∃ a, m.Exec ok i p s cs a s' ∧ f a = b := by
  induction p generalizing s cs with
  | ret a =>
    cases h
    exact ⟨a,.ret a _,rfl⟩
  | op o k ih =>
    cases h with
    | op permitted step rest =>
      obtain ⟨a,hrun,hf⟩ := ih _ rest
      exact ⟨a,.op permitted step hrun,hf⟩

theorem wlp_mono {p : Program Op Res α} {Q Q' : α → σ → Prop} (s : σ)
    (hq : ∀ a s, Q a s → Q' a s) (h : m.wlp ok i p Q s) : m.wlp ok i p Q' s := by
  induction p generalizing s with
  | ret a => exact hq a s h
  | op o k ih => exact fun c r s' hok hx => ih r s' (h c r s' hok hx)

theorem wlp_permitted {ok' : Op → σ → C → Prop} {p : Program Op Res α} {Q : α → σ → Prop} {s : σ}
    (hok : ∀ o s c, ok o s c → ok' o s c) (h : m.wlp ok' i p Q s) : m.wlp ok i p Q s := by
  induction p generalizing s with
  | ret a => exact h
  | op o k ih => exact fun c r s' hc hx => ih r (h c r s' (hok o s c hc) hx)

theorem wlp_bind (p : Program Op Res α) (f : α → Program Op Res β) (Q : β → σ → Prop) (s : σ) :
    m.wlp ok i (p >>= f) Q s ↔ m.wlp ok i p (fun a s' => m.wlp ok i (f a) Q s') s := by
  induction p generalizing s with
  | ret a => rfl
  | op o k ih => exact forall_congr' fun c => forall_congr' fun r =>
      forall_congr' fun s' => imp_congr_right fun _ => imp_congr_right fun _ => ih r s'

theorem wlp_and {p : Program Op Res α} {Q Q' : α → σ → Prop} (s : σ)
    (h : m.wlp ok i p Q s) (h' : m.wlp ok i p Q' s) :
    m.wlp ok i p (fun a s' => Q a s' ∧ Q' a s') s := by
  induction p generalizing s with
  | ret a => exact ⟨h,h'⟩
  | op o k ih => exact fun c r s' hok hx => ih r s' (h c r s' hok hx) (h' c r s' hok hx)

theorem wlp_true (p : Program Op Res α) (s : σ) : m.wlp ok i p (fun _ _ => True) s := by
  induction p generalizing s with
  | ret a => trivial
  | op o k ih => exact fun _ r s' _ _ => ih r s'

theorem wlp_uses {I : σ → Prop} {allowed : Op → Prop}
    (hI : ∀ o s c r s', allowed o → I s → m.exec o i s c = some (r,s') → I s')
    {p : Program Op Res α} (hp : p.Uses allowed) {s : σ} (hs : I s) :
    m.wlp ok i p (fun _ s' => I s') s := by
  induction p generalizing s with
  | ret a => exact hs
  | op o k ih => exact fun c r s' _ hx => ih r (hp.2 r) (hI o s c r s' hp.1 hs hx)

/-- What a weakest precondition promises holds after every permitted execution. -/
theorem exec_wlp {p : Program Op Res α} {s s' : σ} {cs : List C} {a : α}
    {Q : α → σ → Prop} (h : m.Exec ok i p s cs a s') (hw : m.wlp ok i p Q s) : Q a s' := by
  induction h with
  | ret a s => exact hw
  | op permitted step _ ih => exact ih (hw _ _ _ permitted step)

theorem exec_invariant {I : σ → Prop} {p : Program Op Res α} {s s' : σ} {cs : List C} {a : α}
    (hI : ∀ o s c r s', I s → m.exec o i s c = some (r,s') → I s') (hs : I s)
    (h : m.Exec ok i p s cs a s') : I s' := by
  induction h with
  | ret a s => exact hs
  | op _ step _ ih => exact ih (hI _ _ _ _ _ hs step)

theorem can_mono {p : Program Op Res α} {Q Q' : α → σ → Prop} (s : σ)
    (hq : ∀ a s, Q a s → Q' a s) (h : m.can ok i p Q s) : m.can ok i p Q' s := by
  induction p generalizing s with
  | ret a => exact hq a s h
  | op o k ih =>
    obtain ⟨c,r,s',hok,hx,hr⟩ := h
    exact ⟨c,r,s',hok,hx,ih r s' hr⟩

theorem can_bind (p : Program Op Res α) (f : α → Program Op Res β) (Q : β → σ → Prop) (s : σ) :
    m.can ok i (p >>= f) Q s ↔ m.can ok i p (fun a s' => m.can ok i (f a) Q s') s := by
  induction p generalizing s with
  | ret a => rfl
  | op o k ih => exact exists_congr fun c => exists_congr fun r =>
      exists_congr fun s' => and_congr_right fun _ => and_congr_right fun _ => ih r s'

theorem can_wlp {p : Program Op Res α} {Q R : α → σ → Prop} {s : σ} (h : m.can ok i p Q s)
    (hw : m.wlp ok i p R s) : m.can ok i p (fun a s' => Q a s' ∧ R a s') s := by
  induction p generalizing s with
  | ret a => exact ⟨h,hw⟩
  | op o k ih =>
    obtain ⟨c,r,s',hok,hx,hr⟩ := h
    exact ⟨c,r,s',hok,hx,ih r hr (hw c r s' hok hx)⟩

theorem run_can {p : Program Op Res α} {s s' : σ} {cs : List C} {a : α}
    (h : m.run i p s cs = some (a,s')) : m.can (fun _ _ _ => True) i p (fun _ t => t = s') s := by
  have hx := run_exec h
  clear h
  induction hx with
  | ret a s => exact rfl
  | op permitted step _ ih => exact ⟨_,_,_,trivial,step,ih⟩

theorem can_exec {p : Program Op Res α} {s : σ} {Q : α → σ → Prop} (h : m.can ok i p Q s) :
    ∃ cs a s', m.Exec ok i p s cs a s' ∧ Q a s' := by
  induction p generalizing s with
  | ret a => exact ⟨[],a,s,.ret a s,h⟩
  | op o k ih =>
    obtain ⟨c,r,s₁,hok,hx,hk⟩ := h
    obtain ⟨cs,a,s',hrun,hq⟩ := ih r hk
    exact ⟨c::cs,a,s',.op hok hx hrun,hq⟩

/-- Where every operation has a permitted outcome, every program ends. -/
theorem exec_total (hprog : ∀ o s, ∃ c r s', ok o s c ∧ m.exec o i s c = some (r,s'))
    (p : Program Op Res α) (s : σ) : ∃ cs a s', m.Exec ok i p s cs a s' := by
  induction p generalizing s with
  | ret a => exact ⟨[],a,s,.ret a s⟩
  | op o k ih =>
    obtain ⟨c,r,s₁,hok,hx⟩ := hprog o s
    obtain ⟨cs,a,s',h⟩ := ih r s₁
    exact ⟨c::cs,a,s',.op hok hx h⟩

theorem stopAfter_stops (hok : ∀ o s c, ok o s c) {p : Program Op Res α} {s s' : σ} {cs : List C}
    (h : m.stopAfter i p s cs = some s') : m.Stops ok i p s s' := by
  induction p generalizing s cs with
  | ret a =>
    cases cs with
    | nil =>
      obtain rfl : s = s' := Option.some.inj h
      exact .here _ s
    | cons c cs => cases h
  | op o k ih =>
    cases cs with
    | nil =>
      obtain rfl : s = s' := Option.some.inj h
      exact .here _ s
    | cons c cs =>
      cases hx : m.exec o i s c with
      | none => simp [stopAfter,hx] at h
      | some rs =>
        obtain ⟨r,s₁⟩ := rs
        exact .next (hok o s c) hx (ih r (by simpa [stopAfter,hx] using h))

theorem exec_stops {p : Program Op Res α} {s s' : σ} {cs : List C} {a : α}
    (h : m.Exec ok i p s cs a s') : m.Stops ok i p s s' := by
  induction h with
  | ret a s => exact .here _ s
  | op permitted step _ ih => exact .next permitted step ih

theorem always_here {I : σ → Prop} {p : Program Op Res α} {Q : α → σ → Prop} {s : σ}
    (h : m.always ok i I p Q s) : I s := by
  cases p with
  | ret a => exact h.1
  | op o k => exact h.1

theorem stops_always {I : σ → Prop} {p : Program Op Res α} {Q : α → σ → Prop} {s s' : σ}
    (h : m.Stops ok i p s s') (ha : m.always ok i I p Q s) : I s' := by
  induction h with
  | here p s => exact always_here ha
  | next permitted step _ ih => exact ih (ha.2 _ _ _ permitted step)

theorem exec_always {I : σ → Prop} {p : Program Op Res α} {Q : α → σ → Prop} {s s' : σ}
    {cs : List C} {a : α} (h : m.Exec ok i p s cs a s') (ha : m.always ok i I p Q s) :
    I s' ∧ Q a s' := by
  induction h with
  | ret a s => exact ha
  | op permitted step _ ih => exact ih (ha.2 _ _ _ permitted step)

theorem always_mono {I : σ → Prop} {p : Program Op Res α} {Q Q' : α → σ → Prop} (s : σ)
    (hq : ∀ a s, I s → Q a s → Q' a s) (h : m.always ok i I p Q s) :
    m.always ok i I p Q' s := by
  induction p generalizing s with
  | ret a => exact ⟨h.1,hq a s h.1 h.2⟩
  | op o k ih => exact ⟨h.1,fun c r s' hok hx => ih r s' (h.2 c r s' hok hx)⟩

theorem always_weaken {I I' : σ → Prop} {p : Program Op Res α} {Q : α → σ → Prop} (s : σ)
    (hi : ∀ s, I s → I' s) (h : m.always ok i I p Q s) : m.always ok i I' p Q s := by
  induction p generalizing s with
  | ret a => exact ⟨hi s h.1,h.2⟩
  | op o k ih => exact ⟨hi s h.1,fun c r s' hok hx => ih r s' (h.2 c r s' hok hx)⟩

theorem always_bind {I : σ → Prop} {p : Program Op Res α} {f : α → Program Op Res β}
    {Q : β → σ → Prop} (s : σ)
    (h : m.always ok i I p (fun a s' => m.always ok i I (f a) Q s') s) :
    m.always ok i I (p >>= f) Q s := by
  induction p generalizing s with
  | ret a => exact h.2
  | op o k ih => exact ⟨h.1,fun c r s' hok hx => ih r s' (h.2 c r s' hok hx)⟩

theorem always_permitted {ok' : Op → σ → C → Prop} {I : σ → Prop} {p : Program Op Res α}
    {Q : α → σ → Prop} {s : σ} (hok : ∀ o s c, I s → ok o s c → ok' o s c)
    (h : m.always ok' i I p Q s) : m.always ok i I p Q s := by
  induction p generalizing s with
  | ret a => exact h
  | op o k ih => exact ⟨h.1,fun c r s' hc hx => ih r (h.2 c r s' (hok o s c h.1 hc) hx)⟩

theorem always_uses {I : σ → Prop} {allowed : Op → Prop}
    (hI : ∀ o s c r s', allowed o → I s → m.exec o i s c = some (r,s') → I s')
    {p : Program Op Res α} (hp : p.Uses allowed) {s : σ} (hs : I s) :
    m.always ok i I p (fun _ _ => True) s := by
  induction p generalizing s with
  | ret a => exact ⟨hs,trivial⟩
  | op o k ih => exact ⟨hs,fun c r s' _ hx => ih r (hp.2 r) (hI o s c r s' hp.1 hs hx)⟩

theorem guarded_mono {G : Op → σ → Prop} {p : Program Op Res α} {Q Q' : α → σ → Prop} (s : σ)
    (hq : ∀ a s, Q a s → Q' a s) (h : m.guarded ok i G p Q s) : m.guarded ok i G p Q' s := by
  induction p generalizing s with
  | ret a => exact hq a s h
  | op o k ih => exact ⟨h.1,fun c r s' hok hx => ih r s' (h.2 c r s' hok hx)⟩

theorem guarded_bind {G : Op → σ → Prop} {p : Program Op Res α} {f : α → Program Op Res β}
    {Q : β → σ → Prop} (s : σ)
    (h : m.guarded ok i G p (fun a s' => m.guarded ok i G (f a) Q s') s) :
    m.guarded ok i G (p >>= f) Q s := by
  induction p generalizing s with
  | ret a => exact h
  | op o k ih => exact ⟨h.1,fun c r s' hok hx => ih r s' (h.2 c r s' hok hx)⟩

theorem guarded_uses {G : Op → σ → Prop} {I : σ → Prop} {allowed : Op → Prop}
    (hG : ∀ o s, allowed o → I s → G o s)
    (hI : ∀ o s c r s', allowed o → I s → ok o s c → m.exec o i s c = some (r,s') → I s')
    {p : Program Op Res α} (hp : p.Uses allowed) {s : σ} (hs : I s) :
    m.guarded ok i G p (fun _ s' => I s') s := by
  induction p generalizing s with
  | ret a => exact hs
  | op o k ih => exact ⟨hG o s hp.1 hs,fun c r s' hok hx =>
      ih r (hp.2 r) (hI o s c r s' hp.1 hs hok hx)⟩

theorem reaches_guarded {G : Op → σ → Prop} {p p' : Program Op Res α} {Q : α → σ → Prop}
    {s s' : σ} (h : m.Reaches ok i p s p' s') (hg : m.guarded ok i G p Q s) :
    m.guarded ok i G p' Q s' := by
  induction h with
  | here p s => exact hg
  | next permitted step _ ih => exact ih (hg.2 _ _ _ permitted step)

theorem guarded_wlp {G : Op → σ → Prop} {p : Program Op Res α} {Q : α → σ → Prop} {s : σ}
    (h : m.guarded ok i G p Q s) : m.wlp ok i p Q s := by
  induction p generalizing s with
  | ret a => exact h
  | op o k ih => exact fun c r s' hok hx => ih r (h.2 c r s' hok hx)

theorem wlp_guarded {G : Op → σ → Prop} {p : Program Op Res α} {Q R : α → σ → Prop} {s : σ}
    (hg : m.guarded ok i G p R s) (h : m.wlp (fun o s c => ok o s c ∧ G o s) i p Q s) :
    m.wlp ok i p Q s := by
  induction p generalizing s with
  | ret a => exact h
  | op o k ih => exact fun c r s' hok hx => ih r (hg.2 c r s' hok hx) (h c r s' ⟨hok,hg.1⟩ hx)

end Execution

/-- The machine whose state may be moved before each operation; the outcome
supplies the state the operation then starts from. -/
def disturbed (m : Machine Op Res ι σ C) : Machine Op Res ι σ (σ × C) where
  exec o i _ c := m.exec o i c.1 c.2

/-- The disturbances `R` and the outcomes `ok` together. -/
def Disturbance (R : σ → σ → Prop) (ok : Op → σ → C → Prop) (o : Op) (s : σ) (c : σ × C) : Prop :=
  R s c.1 ∧ ok o c.1 c.2

theorem reaches_disturbed {m : Machine Op Res ι σ C} {R : σ → σ → Prop} {ok : Op → σ → C → Prop}
    {i : ι} (hrefl : ∀ s, R s s) {p p' : Program Op Res α} {s s' : σ}
    (h : m.Reaches ok i p s p' s') : m.disturbed.Reaches (Disturbance R ok) i p s p' s' := by
  induction h with
  | here p s => exact .here p s
  | @next o k p' s s₁ s' c r permitted step _ ih =>
    exact .next (c := (s,c)) ⟨hrefl s,permitted⟩ step ih

section Others

variable (m : Machine Op Res ι σ C) (may : ι → Op → Bool)

/-- Operations other agents may perform, one after the other. -/
def others : List (ι × Op × C) → σ → Option σ
  | [], s => some s
  | (j,o,c)::acts, s =>
    if may j o then
      match m.exec o j s c with
      | none => none
      | some (_,s₁) => others acts s₁
    else none

/-- The machine in which other agents act before each operation. -/
def among : Machine Op Res ι σ (List (ι × Op × C) × C) where
  exec o i s c :=
    match m.others may c.1 s with
    | none => none
    | some s₁ => m.exec o i s₁ c.2

variable {m may}

/-- What every permitted operation of another agent leads to, all of them do. -/
theorem others_relation {R : σ → σ → Prop} (hrefl : ∀ s, R s s)
    (htrans : ∀ s t u, R s t → R t u → R s u)
    (hact : ∀ j o s c r s', may j o = true → m.exec o j s c = some (r,s') → R s s')
    {acts : List (ι × Op × C)} {s s' : σ} (h : m.others may acts s = some s') : R s s' := by
  induction acts generalizing s with
  | nil =>
    obtain rfl : s = s' := by simpa [others] using h
    exact hrefl s
  | cons act acts ih =>
    obtain ⟨j,o,c⟩ := act
    unfold others at h
    split at h
    · rename_i hmay
      cases hx : m.exec o j s c with
      | none => simp [hx] at h
      | some rs =>
        obtain ⟨r,s₁⟩ := rs
        exact htrans _ _ _ (hact j o s c r s₁ hmay hx) (ih (by simpa [hx] using h))
    · cases h

theorem among_exec {o : Op} {i : ι} {s s' : σ} {c : List (ι × Op × C) × C} {r : Res o}
    (h : (m.among may).exec o i s c = some (r,s')) :
    ∃ s₁, m.others may c.1 s = some s₁ ∧ m.exec o i s₁ c.2 = some (r,s') := by
  cases hx : m.others may c.1 s with
  | none => simp [among,hx] at h
  | some s₁ => exact ⟨s₁,rfl,by simpa [among,hx] using h⟩

end Others

section Within

/-- What this machine does, the other one does as well. -/
def Within (m m' : Machine Op Res ι σ C) : Prop :=
  ∀ o i s c rs, m.exec o i s c = some rs → m'.exec o i s c = some rs

variable {m m' : Machine Op Res ι σ C}

theorem restrict_within (m : Machine Op Res ι σ C) (check : Op → σ → C → Bool) :
    (m.restrict check).Within m := by
  intro o i s c rs h
  unfold restrict at h
  dsimp only at h
  split at h
  · exact h
  · cases h

theorem run_within (hm : m.Within m') {i : ι} {p : Program Op Res α} {s : σ} {cs : List C}
    {e : α × σ} (h : m.run i p s cs = some e) : m'.run i p s cs = some e := by
  induction p generalizing s cs with
  | ret a =>
    cases cs with
    | nil => exact h
    | cons c cs => cases h
  | op o k ih =>
    cases cs with
    | nil => cases h
    | cons c cs =>
      cases hx : m.exec o i s c with
      | none => simp [run,hx] at h
      | some rs =>
        have hx' := hm o i s c rs hx
        simp only [run,hx] at h
        simp only [run,hx']
        exact ih rs.1 h

theorem others_within (hm : m.Within m') {may : ι → Op → Bool} {acts : List (ι × Op × C)} {s s' : σ}
    (h : m.others may acts s = some s') : m'.others may acts s = some s' := by
  induction acts generalizing s with
  | nil => exact h
  | cons act acts ih =>
    obtain ⟨j,o,c⟩ := act
    unfold others at h ⊢
    split at h
    · rename_i hmay
      rw [if_pos hmay]
      cases hx : m.exec o j s c with
      | none => simp [hx] at h
      | some rs =>
        rw [hx] at h
        rw [hm o j s c rs hx]
        exact ih h
    · cases h

theorem among_within (hm : m.Within m') (may : ι → Op → Bool) : (m.among may).Within (m'.among may) := by
  intro o i s c rs h
  obtain ⟨r,s'⟩ := rs
  obtain ⟨s₁,hothers,hx⟩ := among_exec h
  unfold among
  dsimp only
  rw [others_within hm hothers]
  exact hm o i s₁ c.2 _ hx

end Within

end Machine

end Effect
