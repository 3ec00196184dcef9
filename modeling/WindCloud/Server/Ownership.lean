import WindCloud.Server.ControlClosing
import WindCloud.Server.Service

/-!
# Every open descriptor has one owner

The main thread owns the descriptors it opened itself; an accepted one belongs to
the accept handler, to `conn_map`, to the queue or to one worker. Steps move
descriptors between these places, and close what their thread owns.
-/

set_option autoImplicit false

namespace WindCloud
open Function Links

/-- Each `close` closes an open file, and no file is closed twice or lost. -/
structure Kernel.Sound (k : Kernel) : Prop where
  inj : ∀ fd fd' n, k.files fd = some n → k.files fd' = some n → fd = fd'
  closed : ∀ x ∈ k.closes, ∃ n, x = some n ∧ ∀ fd, k.files fd ≠ some n
  once : k.closes.Nodup
  opened : ∀ n, n < k.accepted ↔ (∃ fd, k.files fd = some n) ∨ some n ∈ k.closes

section Kernel

variable {k : Kernel}

theorem kernel_empty : emptyKernel.Sound :=
  ⟨nofun,nofun,List.nodup_nil,fun n => by simp [emptyKernel]⟩

theorem kernel_accept (hs : k.Sound) {fd : ℕ} (hfd : k.files fd = none) : (k.accept fd).Sound := by
  have hnew : ∀ f n, k.files f = some n → n ≠ k.accepted := by
    intro f n hf he
    have := (hs.opened n).mpr (.inl ⟨f,hf⟩)
    omega
  have hcase : ∀ f n, (k.accept fd).files f = some n →
      (f = fd ∧ n = k.accepted) ∨ (f ≠ fd ∧ k.files f = some n) := by
    intro f n hf
    by_cases he : f = fd
    · subst he
      exact .inl ⟨rfl,by simpa [Kernel.accept,eq_comm] using hf⟩
    · exact .inr ⟨he,by simpa [Kernel.accept,he] using hf⟩
  refine ⟨?_,?_,hs.once,?_⟩
  · intro f f' n hf hf'
    rcases hcase f n hf with ⟨he,hn⟩ | ⟨_,hold⟩
    · rcases hcase f' n hf' with ⟨he',_⟩ | ⟨_,hold'⟩
      · exact he.trans he'.symm
      · exact absurd hn (hnew f' n hold')
    · rcases hcase f' n hf' with ⟨_,hn⟩ | ⟨_,hold'⟩
      · exact absurd hn (hnew f n hold)
      · exact hs.inj f f' n hold hold'
  · intro x hx
    obtain ⟨n,rfl,hn⟩ := hs.closed x hx
    refine ⟨n,rfl,fun f hf => ?_⟩
    rcases hcase f n hf with ⟨_,rfl⟩ | ⟨_,hf⟩
    · have := (hs.opened k.accepted).mpr (.inr hx)
      omega
    · exact hn f hf
  · intro n
    have hacc : (k.accept fd).accepted = k.accepted+1 := rfl
    rw [hacc]
    constructor
    · intro hlt
      by_cases hn : n = k.accepted
      · exact .inl ⟨fd,by simp [Kernel.accept,hn]⟩
      · rcases (hs.opened n).mp (by omega) with ⟨f,hf⟩ | hc
        · have hne : f ≠ fd := by
            rintro rfl
            rw [hfd] at hf
            cases hf
          exact .inl ⟨f,by simpa [Kernel.accept,hne] using hf⟩
        · exact .inr hc
    · rintro (⟨f,hf⟩ | hc)
      · rcases hcase f n hf with ⟨_,rfl⟩ | ⟨_,hf⟩
        · omega
        · have := (hs.opened n).mpr (.inl ⟨f,hf⟩)
          omega
      · have := (hs.opened n).mpr (.inr hc)
        omega

theorem kernel_close (hs : k.Sound) {fd : ℕ} (hfd : (k.files fd).isSome) : (k.close fd).Sound := by
  obtain ⟨m,hm⟩ := Option.isSome_iff_exists.mp hfd
  have hcase : ∀ f n, (k.close fd).files f = some n ↔ f ≠ fd ∧ k.files f = some n := by
    intro f n
    by_cases he : f = fd
    · subst he
      simp [Kernel.close]
    · simp [Kernel.close,he]
  have hcloses : (k.close fd).closes = k.closes ++ [some m] := by rw [← hm]; rfl
  refine ⟨?_,?_,?_,?_⟩
  · exact fun f f' n hf hf' =>
      hs.inj f f' n ((hcase f n).mp hf).2 ((hcase f' n).mp hf').2
  · intro x hx
    rw [hcloses,List.mem_append,List.mem_singleton] at hx
    rcases hx with hx | rfl
    · obtain ⟨n,rfl,hn⟩ := hs.closed x hx
      exact ⟨n,rfl,fun f hf => hn f ((hcase f n).mp hf).2⟩
    · refine ⟨m,rfl,fun f hf => ?_⟩
      obtain ⟨hne,hf⟩ := (hcase f m).mp hf
      exact hne (hs.inj f fd m hf hm)
  · rw [hcloses]
    refine List.nodup_append.mpr ⟨hs.once,by simp,fun x hx y hy he => ?_⟩
    obtain ⟨n,hn,hout⟩ := hs.closed x hx
    obtain rfl : n = m := by
      rw [hn,List.mem_singleton.mp hy] at he
      exact Option.some.inj he
    exact hout fd hm
  · intro n
    rw [show (k.close fd).accepted = k.accepted from rfl,hs.opened,hcloses,List.mem_append,
      List.mem_singleton]
    constructor
    · rintro (⟨f,hf⟩ | hc)
      · by_cases he : f = fd
        · subst he
          exact .inr (.inr (hf.symm.trans hm))
        · exact .inl ⟨f,(hcase f n).mpr ⟨he,hf⟩⟩
      · exact .inr (.inl hc)
    · rintro (⟨f,hf⟩ | hc | he)
      · exact .inl ⟨f,((hcase f n).mp hf).2⟩
      · exact .inr hc
      · exact .inl ⟨fd,hm.trans he.symm⟩

theorem kernel_closeAll (fds : List ℕ) (hs : k.Sound) (hnd : fds.Nodup)
    (hopen : ∀ fd ∈ fds, (k.files fd).isSome) : (fds.foldl Kernel.close k).Sound := by
  induction fds generalizing k with
  | nil => exact hs
  | cons fd fds ih =>
    obtain ⟨hout,hnd⟩ := List.nodup_cons.mp hnd
    refine ih (kernel_close hs (hopen fd (by simp))) hnd fun f hf => ?_
    have hne : f ≠ fd := fun he => hout (he ▸ hf)
    simpa [Kernel.close,hne] using hopen f (by simp [hf])

end Kernel

inductive Holder where
  | main
  | accepting
  | connMap
  | queue
  | worker (i : ℕ)
  deriving DecidableEq, Repr

/-- What `main` has opened itself and not closed yet. -/
def MainThread.own (d : MainFds) : MainThread → List ℕ
  | .loop | .accepted _ | .closingListen => d.all
  | .closingControl _ | .joining _ => [d.pipeRead,d.pipeWrite,d.timerFd,d.epfd]
  | .returned => []

/-- The descriptors at a place, `vs` being those in the queue. -/
def Service.Holds (s : Service) (vs : List ℕ) : Holder → ℕ → Prop
  | .main, fd => fd ∈ s.main.own s.fds
  | .accepting, fd => s.main = .accepted fd
  | .connMap, fd => (s.control.connMap fd).isSome
  | .queue, fd => fd ∈ vs
  | .worker i, fd => s.worker i = .taken fd ∨ s.worker i = .handled fd

/-- The place whose descriptors a step may close. -/
def ServiceEvent.closer : ServiceEvent → Holder → Prop
  | .initFailed, h | .invalidRole, h | .controlRole _ _, h => h = .accepting
  | .control _ _ _, h | .timer _, h | .closeControl, h => h = .connMap
  | .exit, h => h = .queue
  | .closeListen, h | .finish, h => h = .main
  | .close i, h => h = .worker i
  | _, _ => False

/-- The kernel once the step has opened its descriptor, if it opens one. -/
def Service.opened (s : Service) : ServiceEvent → Kernel
  | .accept fd => s.kernel.accept fd
  | _ => s.kernel

/-- `owner` tells each descriptor's place, and knows the open ones. -/
structure Tracks (vs : List ℕ) (owner : ℕ → Option Holder) (s : Service) : Prop where
  sound : s.kernel.Sound
  holds : ∀ h fd, s.Holds vs h fd ↔ owner fd = some h
  files : ∀ fd, (owner fd).isSome ↔ (s.kernel.files fd).isSome
  mains : ∀ fd n, s.kernel.files fd = some n → (owner fd = some .main ↔ n < 5)

def without (owner : ℕ → Option Holder) (fds : List ℕ) : ℕ → Option Holder :=
  fun fd => if fds.contains fd then none else owner fd

theorem without_in {owner : ℕ → Option Holder} {fds : List ℕ} {fd : ℕ} (h : fd ∈ fds) :
    without owner fds fd = none := by simp [without,h]

theorem without_out {owner : ℕ → Option Holder} {fds : List ℕ} {fd : ℕ} (h : fd ∉ fds) :
    without owner fds fd = owner fd := by simp [without,h]

section Tracking

variable {vs vs' : List ℕ} {owner : ℕ → Option Holder} {s s' : Service}

theorem tracks_same (ht : Tracks vs owner s) (hk : s'.kernel = s.kernel)
    (hh : ∀ h fd, s'.Holds vs' h fd ↔ s.Holds vs h fd) : Tracks vs' owner s' where
  sound := by rw [hk]; exact ht.sound
  holds h fd := by rw [hh,ht.holds]
  files fd := by rw [hk,ht.files]
  mains fd n hn := ht.mains fd n (by rwa [hk] at hn)

theorem tracks_closed (fds : List ℕ) (ht : Tracks vs owner s) (hnd : fds.Nodup)
    (hopen : ∀ fd ∈ fds, (owner fd).isSome) (hk : s'.kernel = fds.foldl Kernel.close s.kernel)
    (hh : ∀ h fd, s'.Holds vs' h fd ↔ s.Holds vs h fd ∧ fd ∉ fds) :
    Tracks vs' (without owner fds) s' where
  sound := by
    rw [hk]
    exact kernel_closeAll fds ht.sound hnd fun fd hfd => (ht.files fd).mp (hopen fd hfd)
  holds h fd := by
    rw [hh,ht.holds]
    by_cases hin : fd ∈ fds
    · simp [without_in hin,hin]
    · simp [without_out hin,hin]
  files fd := by
    by_cases hin : fd ∈ fds
    · have hnone := (closed_files fds s.kernel fd).mpr (.inl hin)
      rw [without_in hin,hk,hnone]
      simp
    · rw [without_out hin,hk,kept_files fds _ hin]
      exact ht.files fd
  mains fd n hn := by
    by_cases hin : fd ∈ fds
    · rw [hk,(closed_files fds s.kernel fd).mpr (.inl hin)] at hn
      cases hn
    · rw [hk,kept_files fds _ hin] at hn
      rw [without_out hin]
      exact ht.mains fd n hn

theorem tracks_moved {fd : ℕ} {h₀ : Holder} (h₁ : Holder) (ht : Tracks vs owner s)
    (hfd : owner fd = some h₀) (hm₀ : h₀ ≠ .main) (hm₁ : h₁ ≠ .main) (hk : s'.kernel = s.kernel)
    (hh : ∀ h f, s'.Holds vs' h f ↔ (f = fd ∧ h = h₁) ∨ (f ≠ fd ∧ s.Holds vs h f)) :
    Tracks vs' (update owner fd (some h₁)) s' where
  sound := by rw [hk]; exact ht.sound
  holds h f := by
    rw [hh,ht.holds]
    by_cases hf : f = fd
    · subst hf
      simp [eq_comm]
    · simp [hf]
  files f := by
    rw [hk,← ht.files]
    by_cases hf : f = fd
    · subst hf
      simp [hfd]
    · simp [hf]
  mains f n hn := by
    rw [hk] at hn
    rw [← ht.mains f n hn]
    by_cases hf : f = fd
    · subst hf
      simp [hfd,hm₀,hm₁]
    · simp [hf]

theorem tracks_accepted {fd : ℕ} (ht : Tracks vs owner s) (hfd : s.kernel.files fd = none)
    (hfive : 5 ≤ s.kernel.accepted) (hk : s'.kernel = s.kernel.accept fd)
    (hh : ∀ h f, s'.Holds vs' h f ↔ (f = fd ∧ h = .accepting) ∨ (f ≠ fd ∧ s.Holds vs h f)) :
    Tracks vs' (update owner fd (some .accepting)) s' where
  sound := by
    rw [hk]
    exact kernel_accept ht.sound hfd
  holds h f := by
    rw [hh,ht.holds]
    by_cases hf : f = fd
    · subst hf
      simp [eq_comm]
    · simp [hf]
  files f := by
    rw [hk]
    by_cases hf : f = fd
    · subst hf
      simp [Kernel.accept]
    · simpa [Kernel.accept,hf] using ht.files f
  mains f n hn := by
    rw [hk] at hn
    by_cases hf : f = fd
    · subst hf
      obtain rfl : s.kernel.accepted = n := by simpa [Kernel.accept] using hn
      simp only [update_self,Option.some.injEq,reduceCtorEq,false_iff]
      omega
    · rw [update_of_ne hf]
      exact ht.mains f n (by simpa [Kernel.accept,hf] using hn)

theorem tracks_open (ht : Tracks vs owner s) {h : Holder} {fd : ℕ} (hh : s.Holds vs h fd) :
    (s.kernel.files fd).isSome := by
  rw [← ht.files,(ht.holds h fd).mp hh]
  rfl

theorem tracks_unique (ht : Tracks vs owner s) {h h' : Holder} {fd : ℕ} (hh : s.Holds vs h fd)
    (hh' : s.Holds vs h' fd) : h = h' :=
  Option.some.inj (((ht.holds h fd).mp hh).symm.trans ((ht.holds h' fd).mp hh'))

end Tracking

def MainThread.exiting : MainThread → Bool
  | .loop | .accepted _ => false
  | _ => true

/-- The part of the map the exit branch has been through. -/
def MainThread.clearedTo : MainThread → ℕ
  | .closingControl fd => fd
  | .joining _ | .returned => maxControlFd
  | _ => 0

/-- The workers the exit branch has joined. -/
def MainThread.joinedTo (num : ℕ) : MainThread → ℕ
  | .joining i => i
  | .returned => num
  | _ => 0

/-- The memory is sound, and the exit branch has done what its place in it says. -/
structure Phase (vs : List ℕ) (s : Service) : Prop where
  wired : ∃ L, Wired L s.control
  queue : Fifo.Holds s.pool.nodes s.pool.queue vs
  nodup : vs.Nodup
  five : 5 ≤ s.kernel.accepted
  fds : s.fds.all.Nodup
  exit : s.pool.exitFlag = s.main.exiting
  drained : s.main.exiting = true → vs = []
  cleared : ∀ fd < s.main.clearedTo, s.control.connMap fd = none
  joined : ∀ i < s.main.joinedTo s.num, s.worker i = .exited
  outside : ∀ i, s.num ≤ i → s.worker i = .waiting

/-- The histories of the queue and of the requests agree with the queue and the
workers: what enters leaves once, in order, and what a worker takes it serves. -/
structure Tasks (vs : List ℕ) (s : Service) : Prop where
  entered : s.queued = s.left.map Prod.snd ++ vs.map s.kernel.files
  known : ∀ x ∈ s.queued, ∃ n, x = some n ∧ n < s.kernel.accepted
  placed : ∀ fd n, s.kernel.files fd = some n → some n ∈ s.queued →
    fd ∈ vs ∨ ∃ i, s.Holds vs (.worker i) fd
  distinct : s.queued.Nodup
  served : ∀ i n, (i,n) ∈ s.served → (some i,n) ∈ s.left
  once : s.served.Nodup
  pending : ∀ i n, (some i,n) ∈ s.left → (i,n) ∈ s.served ∨
    ∃ fd, s.worker i = .taken fd ∧ s.kernel.files fd = n
  taken : ∀ i fd, s.worker i = .taken fd →
    (some i,s.kernel.files fd) ∈ s.left ∧ (i,s.kernel.files fd) ∉ s.served
  dropped : ∀ n, (none,n) ∈ s.left → n ∈ s.kernel.closes

/-- What the step closes is at a place of the thread that takes it. -/
def Closes (vs : List ℕ) (s : Service) (e : ServiceEvent) (s' : Service) : Prop :=
  ∃ fds : List ℕ, fds.Nodup ∧ s'.kernel = fds.foldl Kernel.close (s.opened e) ∧
    ∀ fd ∈ fds, ∃ h, s.Holds vs h fd ∧ e.closer h

def Sustains (vs : List ℕ) (s : Service) (e : ServiceEvent) : Prop :=
  ∃ vs' owner' s', s.step e = some s' ∧ Tracks vs' owner' s' ∧ Phase vs' s' ∧ Tasks vs' s' ∧
    Closes vs s e s'

section Frames

variable {vs : List ℕ} {owner : ℕ → Option Holder} {s s' : Service}

theorem tasks_frame (ht : Tasks vs s) (hq : s'.queued = s.queued) (hl : s'.left = s.left)
    (hs : s'.served = s.served)
    (hw : ∀ i fd, s'.worker i = .taken fd ↔ s.worker i = .taken fd)
    (hacc : s.kernel.accepted ≤ s'.kernel.accepted)
    (hcl : ∀ x ∈ s.kernel.closes, x ∈ s'.kernel.closes)
    (hvs : ∀ fd ∈ vs, s'.kernel.files fd = s.kernel.files fd)
    (hwf : ∀ i fd, s.worker i = .taken fd → s'.kernel.files fd = s.kernel.files fd)
    (hpl : ∀ fd n, s'.kernel.files fd = some n → some n ∈ s.queued →
      fd ∈ vs ∨ ∃ i, s'.Holds vs (.worker i) fd) : Tasks vs s' where
  entered := by
    rw [hq,hl,ht.entered]
    congr 1
    exact (List.map_congr_left hvs).symm
  known x hx := by
    obtain ⟨n,hn,hlt⟩ := ht.known x (hq ▸ hx)
    exact ⟨n,hn,Nat.lt_of_lt_of_le hlt hacc⟩
  placed fd n hn hx := hpl fd n hn (hq ▸ hx)
  distinct := hq ▸ ht.distinct
  served i n hin := by
    rw [hl]
    exact ht.served i n (hs ▸ hin)
  once := hs ▸ ht.once
  pending i n hin := by
    rw [hs]
    rcases ht.pending i n (hl ▸ hin) with h | ⟨fd,hfd,hn⟩
    · exact .inl h
    · exact .inr ⟨fd,(hw i fd).mpr hfd,(hwf i fd hfd).trans hn⟩
  taken i fd hfd := by
    have hold := (hw i fd).mp hfd
    rw [hwf i fd hold,hl,hs]
    exact ht.taken i fd hold
  dropped n hin := hcl n (ht.dropped n (hl ▸ hin))

theorem closeAll_accepted (fds : List ℕ) (k : Kernel) :
    (fds.foldl Kernel.close k).accepted = k.accepted := by
  induction fds generalizing k with
  | nil => rfl
  | cons fd fds ih => exact ih (k.close fd)

theorem closeAll_closes (fds : List ℕ) (k : Kernel) :
    ∀ x ∈ k.closes, x ∈ (fds.foldl Kernel.close k).closes := by
  induction fds generalizing k with
  | nil => exact fun x hx => hx
  | cons fd fds ih => exact fun x hx => ih (k.close fd) x (by simp [Kernel.close,hx])

theorem sustains_closing (ht : Tracks vs owner s) (htask : Tasks vs s) {e : ServiceEvent}
    {control : Control} {main : MainThread} (fds : List ℕ)
    (hstep : s.step e = some { s with control := control, main := main })
    (hopen : s.opened e = s.kernel) (hk : control.kernel = fds.foldl Kernel.close s.kernel)
    (hnd : fds.Nodup)
    (hfds : ∀ fd ∈ fds, ∃ h, s.Holds vs h fd ∧ e.closer h ∧ h ≠ .queue ∧ ∀ i, h ≠ .worker i)
    (hh : ∀ h fd, Service.Holds { s with control := control, main := main } vs h fd ↔
      s.Holds vs h fd ∧ fd ∉ fds)
    (hphase : Phase vs { s with control := control, main := main }) : Sustains vs s e := by
  have hout : ∀ h fd, s.Holds vs h fd → (h = .queue ∨ ∃ i, h = .worker i) → fd ∉ fds := by
    intro h fd hfd hkind hin
    obtain ⟨h',hfd',_,hq,hw⟩ := hfds fd hin
    obtain rfl := tracks_unique ht hfd hfd'
    rcases hkind with rfl | ⟨i,rfl⟩
    · exact hq rfl
    · exact hw i rfl
  have hkernel : Service.kernel { s with control := control, main := main } =
      fds.foldl Kernel.close s.kernel := hk
  have htracks := tracks_closed fds ht hnd (fun fd hin => by
    obtain ⟨h,hfd,_⟩ := hfds fd hin
    rw [(ht.holds h fd).mp hfd]
    rfl) hkernel hh
  refine ⟨vs,_,_,hstep,htracks,hphase,?_,fds,hnd,by rw [hopen]; exact hk,fun fd hin => ?_⟩
  · refine tasks_frame htask rfl rfl rfl (fun _ _ => Iff.rfl) ?_ ?_ ?_ ?_ ?_
    · rw [hkernel,closeAll_accepted]
    · rw [hkernel]
      exact closeAll_closes fds s.kernel
    · intro fd hin
      rw [hkernel,kept_files fds _ (hout .queue fd hin (.inl rfl))]
    · intro i fd hfd
      rw [hkernel,kept_files fds _ (hout (.worker i) fd (.inl hfd) (.inr ⟨i,rfl⟩))]
    · intro fd n hn hx
      rw [hkernel] at hn
      have hin : fd ∉ fds := by
        intro hin
        rw [(closed_files fds s.kernel fd).mpr (.inl hin)] at hn
        cases hn
      rw [kept_files fds _ hin] at hn
      exact htask.placed fd n hn hx
  · obtain ⟨h,hfd,hcl,_⟩ := hfds fd hin
    exact ⟨h,hfd,hcl⟩

end Frames

end WindCloud
