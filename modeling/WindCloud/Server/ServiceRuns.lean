import WindCloud.Server.Ownership

/-!
# Each step of the process keeps the ownership of descriptors

One lemma for each kind of step, and from them what holds in every reachable
state, at every `close`, and when `main` returns.
-/

set_option autoImplicit false

namespace WindCloud
open Function Links

variable {vs : List ℕ} {owner : ℕ → Option Holder} {s s' : Service}

section MainThread

theorem phase_running (hp : Phase vs s) (hrun : s.main.exiting = false) {control : Control}
    {main : MainThread} (hmain : main.exiting = false) (hw : ∃ L, Wired L control)
    (hacc : s.kernel.accepted ≤ control.kernel.accepted) :
    Phase vs { s with control := control, main := main } where
  wired := hw
  queue := hp.queue
  nodup := hp.nodup
  five := Nat.le_trans hp.five hacc
  fds := hp.fds
  exit := by rw [hp.exit,hrun,hmain]
  drained h := by
    rw [hmain] at h
    cases h
  cleared fd hfd := by cases main <;> cases hmain <;> cases hfd
  joined i hi := by cases main <;> cases hmain <;> cases hi
  outside := hp.outside

theorem tracks_ne (ht : Tracks vs owner s) {h h' : Holder} {fd f : ℕ} (hh : s.Holds vs h fd)
    (hh' : s.Holds vs h' f) (hne : h' ≠ h) : f ≠ fd := by
  rintro rfl
  exact hne (tracks_unique ht hh' hh)

theorem moved_other {h h₁ : Holder} {fd f : ℕ} {P : Prop} (hne : s.Holds vs h f → f ≠ fd)
    (h₁ne : h ≠ h₁) (hsame : P ↔ s.Holds vs h f) :
    P ↔ (f = fd ∧ h = h₁) ∨ (f ≠ fd ∧ s.Holds vs h f) := by
  rw [hsame]
  constructor
  · exact fun hf => .inr ⟨hne hf,hf⟩
  · rintro (⟨_,he⟩ | ⟨_,hf⟩)
    · exact absurd he h₁ne
    · exact hf

theorem closed_other {h : Holder} {fds : List ℕ} {f : ℕ} {P : Prop}
    (hout : s.Holds vs h f → f ∉ fds) (hsame : P ↔ s.Holds vs h f) :
    P ↔ s.Holds vs h f ∧ f ∉ fds := by
  rw [hsame]
  exact ⟨fun hf => ⟨hf,hout hf⟩,fun hf => hf.1⟩

theorem holds_main (hown : s'.main.own s'.fds = s.main.own s.fds) (f : ℕ) :
    s'.Holds vs .main f ↔ s.Holds vs .main f := by
  rw [Service.Holds,Service.Holds,hown]

theorem sustains_rejected (ht : Tracks vs owner s) (hp : Phase vs s) (htask : Tasks vs s) {fd : ℕ}
    (hmain : s.main = .accepted fd) {e : ServiceEvent} (control : Control)
    (hstep : s.step e = some { s with control := control, main := .loop })
    (hopen : s.opened e = s.kernel) (hcl : e.closer .accepting) (hw : ∃ L, Wired L control)
    (hk : control.kernel = s.kernel.close fd) (hm : control.connMap = s.control.connMap) :
    Sustains vs s e := by
  have hacc : s.Holds vs .accepting fd := hmain
  have hexit : s.main.exiting = false := by rw [hmain]; rfl
  refine sustains_closing ht htask [fd] hstep hopen hk (by simp) ?_ ?_
    (phase_running hp hexit rfl hw (Nat.le_of_eq (by rw [hk]; rfl)))
  · intro f hf
    obtain rfl : f = fd := by simpa using hf
    exact ⟨.accepting,hacc,hcl,by simp,by simp⟩
  · intro h f
    have hsame : h ≠ .accepting → s.Holds vs h f → f ∉ [fd] := fun hne hh =>
      by simpa using tracks_ne ht hacc hh hne
    cases h with
    | accepting =>
      constructor
      · intro hf
        cases hf
      · rintro ⟨hf,hout⟩
        have he : MainThread.accepted fd = .accepted f := hmain.symm.trans hf
        cases he
        exact absurd (List.mem_singleton.mpr rfl) hout
    | main =>
      exact closed_other (hsame (by simp)) (holds_main (by rw [hmain]; rfl) f)
    | connMap => exact closed_other (hsame (by simp)) (by simp [Service.Holds,hm])
    | queue => exact closed_other (hsame (by simp)) Iff.rfl
    | worker i => exact closed_other (hsame (by simp)) Iff.rfl

theorem sustains_unmapped (ht : Tracks vs owner s) (htask : Tasks vs s) {e : ServiceEvent}
    {control : Control} {main : MainThread} {fds : List ℕ}
    (hstep : s.step e = some { s with control := control, main := main })
    (hopen : s.opened e = s.kernel) (hcl : e.closer .connMap) (hu : Unmapped fds s.control control)
    (hown : main.own s.fds = s.main.own s.fds)
    (hacc : ∀ f, main = .accepted f ↔ s.main = .accepted f)
    (hphase : Phase vs { s with control := control, main := main }) : Sustains vs s e := by
  refine sustains_closing ht htask fds hstep hopen hu.kernel hu.nodup ?_ ?_ hphase
  · exact fun f hf => ⟨.connMap,hu.mapped f hf,hcl,by simp,by simp⟩
  · intro h f
    have hsame : h ≠ .connMap → s.Holds vs h f → f ∉ fds := fun hne hh hin =>
      hne (tracks_unique ht hh (show s.Holds vs .connMap f from hu.mapped f hin))
    cases h with
    | connMap => exact hu.map f
    | main => exact closed_other (hsame (by simp)) (holds_main hown f)
    | accepting => exact closed_other (hsame (by simp)) (hacc f)
    | queue => exact closed_other (hsame (by simp)) Iff.rfl
    | worker i => exact closed_other (hsame (by simp)) Iff.rfl

theorem sustains_control (ht : Tracks vs owner s) (hp : Phase vs s) (htask : Tasks vs s) {fd : ℕ}
    {received : Option ClientContext} {calloc : Option ℕ}
    (he : s.Enabled (.control fd received calloc)) : Sustains vs s (.control fd received calloc) := by
  obtain ⟨hmain,hfresh⟩ := he
  obtain ⟨L,hw⟩ := hp.wired
  obtain ⟨fds,L',control,hrun,hw',hu⟩ := handleControlEvent_unmapped hw fd received hfresh
  have hexit : s.main.exiting = false := by rw [hmain]; rfl
  have hstep : s.step (.control fd received calloc) =
      some { s with control := control, main := s.main } := by
    simp only [Service.step,Service.loopStep,hrun,Option.bind_eq_bind,Option.bind_some]
  refine sustains_unmapped ht htask hstep rfl rfl hu rfl (fun _ => Iff.rfl) ?_
  exact phase_running hp hexit hexit ⟨L',hw'⟩
    (Nat.le_of_eq (by rw [hu.kernel,closeAll_accepted]; rfl))

theorem sustains_timer (ht : Tracks vs owner s) (hp : Phase vs s) (htask : Tasks vs s) {n : ℕ}
    (hmain : s.main = .loop) : Sustains vs s (.timer n) := by
  obtain ⟨L,hw⟩ := hp.wired
  obtain ⟨fds,L',control,hrun,hw',hu⟩ := handleTimerEvent_unmapped hw n
  have hexit : s.main.exiting = false := by rw [hmain]; rfl
  have hstep : s.step (.timer n) = some { s with control := control, main := s.main } := by
    simp only [Service.step,Service.loopStep,hrun,Option.bind_eq_bind,Option.bind_some]
  refine sustains_unmapped ht htask hstep rfl rfl hu rfl (fun _ => Iff.rfl) ?_
  exact phase_running hp hexit hexit ⟨L',hw'⟩
    (Nat.le_of_eq (by rw [hu.kernel,closeAll_accepted]; rfl))

theorem phase_exiting (hp : Phase vs s) (hrun : s.main.exiting = true) {control : Control}
    {main : MainThread} (hmain : main.exiting = true) (hw : ∃ L, Wired L control)
    (hacc : control.kernel.accepted = s.kernel.accepted)
    (hcleared : ∀ fd < main.clearedTo, control.connMap fd = none)
    (hjoined : ∀ i < main.joinedTo s.num, s.worker i = .exited) :
    Phase vs { s with control := control, main := main } where
  wired := hw
  queue := hp.queue
  nodup := hp.nodup
  five := by
    have hfive := hp.five
    rw [← hacc] at hfive
    exact hfive
  fds := hp.fds
  exit := by rw [hp.exit,hrun,hmain]
  drained _ := hp.drained hrun
  cleared := hcleared
  joined := hjoined
  outside := hp.outside

theorem sustains_own (ht : Tracks vs owner s) (hp : Phase vs s) (htask : Tasks vs s)
    (hrun : s.main.exiting = true) {e : ServiceEvent} {main : MainThread} {fds : List ℕ}
    (hstep : s.step e = some { s with
      control := { s.control with kernel := fds.foldl Kernel.close s.kernel }
      main := main })
    (hopen : s.opened e = s.kernel) (hcl : e.closer .main) (hmain : main.exiting = true)
    (hnd : fds.Nodup) (hown : ∀ f, f ∈ main.own s.fds ↔ f ∈ s.main.own s.fds ∧ f ∉ fds)
    (hin : ∀ f ∈ fds, f ∈ s.main.own s.fds)
    (hcleared : ∀ fd < main.clearedTo, s.control.connMap fd = none)
    (hjoined : ∀ i < main.joinedTo s.num, s.worker i = .exited) : Sustains vs s e := by
  obtain ⟨L,hw⟩ := hp.wired
  have hnot : ∀ f, s.main ≠ .accepted f := by
    intro f he
    rw [he] at hrun
    cases hrun
  have hnot' : ∀ f, main ≠ .accepted f := by
    intro f he
    rw [he] at hmain
    cases hmain
  refine sustains_closing ht htask fds hstep hopen rfl hnd ?_ ?_
    (phase_exiting hp hrun hmain ⟨L,wired_kernel hw _⟩ (closeAll_accepted fds s.kernel) hcleared
      hjoined)
  · exact fun f hf => ⟨.main,hin f hf,hcl,by simp,by simp⟩
  · intro h f
    have hsame : h ≠ .main → s.Holds vs h f → f ∉ fds := fun hne hh hf =>
      hne (tracks_unique ht hh (show s.Holds vs .main f from hin f hf))
    cases h with
    | main => exact hown f
    | accepting => exact ⟨fun hf => absurd hf (hnot' f),fun hf => absurd hf.1 (hnot f)⟩
    | connMap => exact closed_other (hsame (by simp)) Iff.rfl
    | queue => exact closed_other (hsame (by simp)) Iff.rfl
    | worker i => exact closed_other (hsame (by simp)) Iff.rfl

theorem sustains_closeListen (ht : Tracks vs owner s) (hp : Phase vs s) (htask : Tasks vs s)
    (hmain : s.main = .closingListen) : Sustains vs s .closeListen := by
  have hrun : s.main.exiting = true := by rw [hmain]; rfl
  have hown : s.main.own s.fds = s.fds.all := by rw [hmain]; rfl
  have hnd := hp.fds
  have hstep : s.step .closeListen = some { s with
      control := { s.control with kernel := [s.fds.listenFd].foldl Kernel.close s.kernel }
      main := .closingControl 0 } := by
    simp only [Service.step,Service.exitStep,hmain]
    rfl
  refine sustains_own ht hp htask hrun hstep rfl rfl rfl (by simp) ?_ ?_ nofun nofun
  · intro f
    rw [hown]
    simp only [MainFds.all,List.nodup_cons,List.mem_cons,not_or] at hnd
    simp only [MainThread.own,MainFds.all,List.mem_cons,List.not_mem_nil,or_false]
    constructor
    · rintro (rfl | rfl | rfl | rfl)
      · exact ⟨by simp,hnd.1.2.1⟩
      · exact ⟨by simp,hnd.2.1.1⟩
      · exact ⟨by simp,Ne.symm hnd.2.2.1.1⟩
      · exact ⟨by simp,Ne.symm hnd.2.2.1.2.1⟩
    · rintro ⟨rfl | rfl | rfl | rfl | rfl,hne⟩
      · simp
      · simp
      · exact absurd rfl hne
      · simp
      · simp
  · intro f hf
    obtain rfl : f = s.fds.listenFd := by simpa using hf
    rw [hown]
    simp [MainFds.all]

theorem sustains_finish (ht : Tracks vs owner s) (hp : Phase vs s) (htask : Tasks vs s)
    (hmain : s.main = .joining s.num) : Sustains vs s .finish := by
  have hrun : s.main.exiting = true := by rw [hmain]; rfl
  have hnd := hp.fds
  have hcleared : ∀ fd < maxControlFd, s.control.connMap fd = none := by
    intro fd hfd
    refine hp.cleared fd ?_
    rw [hmain]
    exact hfd
  have hjoined : ∀ i < s.num, s.worker i = .exited := by
    intro i hi
    refine hp.joined i ?_
    rw [hmain]
    exact hi
  have hown : s.main.own s.fds = [s.fds.pipeRead,s.fds.pipeWrite,s.fds.timerFd,s.fds.epfd] := by
    rw [hmain]
    rfl
  have hstep : s.step .finish = some { s with
      control := { s.control with
        kernel := [s.fds.timerFd,s.fds.pipeRead,s.fds.pipeWrite,s.fds.epfd].foldl Kernel.close
          s.kernel }
      main := .returned } := rfl
  refine sustains_own ht hp htask hrun hstep rfl rfl rfl ?_ ?_ ?_ hcleared hjoined
  · simp only [MainFds.all,List.nodup_cons,List.mem_cons,not_or] at hnd
    obtain ⟨⟨hpw,_,htm,hep,_⟩,⟨_,htm',hep',_⟩,_,⟨hte,_⟩,_⟩ := hnd
    simp [hpw,hep,hep',hte,Ne.symm htm,Ne.symm htm']
  · intro f
    rw [hown]
    simp [MainThread.own]
    tauto
  · intro f hf
    rw [hown]
    simp at hf ⊢
    tauto

theorem sustains_closeControl (ht : Tracks vs owner s) (hp : Phase vs s) (htask : Tasks vs s)
    {k : ℕ} (hmain : s.main = .closingControl k) : Sustains vs s .closeControl := by
  obtain ⟨L,hw⟩ := hp.wired
  have hrun : s.main.exiting = true := by rw [hmain]; rfl
  have hcleared : ∀ fd < k, s.control.connMap fd = none := by
    intro fd hfd
    refine hp.cleared fd ?_
    rw [hmain]
    exact hfd
  have hacc : ∀ main : MainThread, main.exiting = true → ∀ f, main = .accepted f ↔ s.main = .accepted f := by
    intro main hexit f
    constructor
    · rintro rfl
      cases hexit
    · intro he
      rw [he] at hrun
      cases hrun
  by_cases hk : k < maxControlFd
  · obtain ⟨fds,L',control,hclose,hw',hu,hnone,_⟩ := closeControlConnection_unmapped hw k
    have hstep : s.step .closeControl =
        some { s with control := control, main := .closingControl (k+1) } := by
      simp only [Service.step,Service.exitStep,hmain,if_pos hk,hclose,Option.bind_eq_bind,
        Option.bind_some]
    refine sustains_unmapped ht htask hstep rfl rfl hu (by rw [hmain]; rfl) (hacc _ rfl)
      (phase_exiting hp hrun rfl ⟨L',hw'⟩ (by rw [hu.kernel,closeAll_accepted]; rfl) ?_ nofun)
    intro fd hfd
    have hle : fd < k+1 := hfd
    by_cases he : fd = k
    · rw [he]
      exact hnone hk
    · have hold := hcleared fd (by omega)
      have hmap := hu.map fd
      rw [hold] at hmap
      simpa using hmap
  · have hstep : s.step .closeControl =
        some { s with control := s.control, main := .joining 0 } := by
      simp only [Service.step,Service.exitStep,hmain,if_neg hk]
    refine sustains_unmapped ht htask hstep rfl rfl (unmapped_nil (fun _ => Iff.rfl) rfl)
      (by rw [hmain]; rfl) (hacc _ rfl)
      (phase_exiting hp hrun rfl ⟨L,hw⟩ rfl (fun fd hfd => hcleared fd ?_) nofun)
    have hlt : fd < maxControlFd := hfd
    omega

theorem sustains_join (ht : Tracks vs owner s) (hp : Phase vs s) (htask : Tasks vs s) {i : ℕ}
    (hmain : s.main = .joining i) (hi : s.worker i = .exited) : Sustains vs s .join := by
  obtain ⟨L,hw⟩ := hp.wired
  have hrun : s.main.exiting = true := by rw [hmain]; rfl
  have hstep : s.step .join = some { s with control := s.control, main := .joining (i+1) } := by
    simp only [Service.step,Service.exitStep,hmain]
  refine sustains_closing ht htask [] hstep rfl rfl (by simp) (by simp) ?_
    (phase_exiting hp hrun rfl ⟨L,hw⟩ rfl ?_ ?_)
  · intro h f
    have hown : s.main.own s.fds = (MainThread.joining (i+1)).own s.fds := by rw [hmain]; rfl
    cases h with
    | main => simp [Service.Holds,hown]
    | accepting => simp [Service.Holds,hmain]
    | connMap => simp [Service.Holds]
    | queue => simp [Service.Holds]
    | worker j => simp [Service.Holds]
  · intro fd hfd
    refine hp.cleared fd ?_
    rw [hmain]
    exact hfd
  · intro j hj
    have hle : j < i+1 := hj
    by_cases he : j = i
    · rw [he,hi]
    · refine hp.joined j ?_
      rw [hmain]
      show j < i
      omega

end MainThread

section Accepting

theorem sustains_accept (ht : Tracks vs owner s) (hp : Phase vs s) (htask : Tasks vs s) {fd : ℕ}
    (hmain : s.main = .loop) (hfd : s.kernel.files fd = none) : Sustains vs s (.accept fd) := by
  have hexit : s.main.exiting = false := by rw [hmain]; rfl
  obtain ⟨L,hw⟩ := hp.wired
  have hne : ∀ h f, s.Holds vs h f → f ≠ fd := by
    rintro h f hf rfl
    have hopen := tracks_open ht hf
    rw [hfd] at hopen
    cases hopen
  have hkeep : ∀ f, f ≠ fd → (s.kernel.accept fd).files f = s.kernel.files f :=
    fun f hf => update_of_ne hf _ _
  refine ⟨vs,_,_,rfl,tracks_accepted ht hfd hp.five rfl ?_,
    phase_running hp hexit rfl ⟨L,wired_kernel hw _⟩ (Nat.le_succ _),?_,[],List.nodup_nil,rfl,
    by simp⟩
  · intro h f
    cases h with
    | accepting =>
      have hno : ¬ s.Holds vs .accepting f := by simp [Service.Holds,hmain]
      simp [Service.Holds,hmain,eq_comm]
    | main => exact moved_other (hne .main f) (by simp) (holds_main (by rw [hmain]; rfl) f)
    | connMap => exact moved_other (hne .connMap f) (by simp) Iff.rfl
    | queue => exact moved_other (hne .queue f) (by simp) Iff.rfl
    | worker i => exact moved_other (hne (.worker i) f) (by simp) Iff.rfl
  · refine tasks_frame htask rfl rfl rfl (fun _ _ => Iff.rfl) (Nat.le_succ _) (fun x hx => hx)
      (fun f hf => hkeep f (hne .queue f hf)) (fun i f hf => hkeep f (hne (.worker i) f (.inl hf)))
      (fun f n hn hx => ?_)
    by_cases hf : f = fd
    · obtain ⟨m,hm,hlt⟩ := htask.known _ hx
      have he : (s.kernel.accept fd).files f = some s.kernel.accepted := by
        rw [hf]
        exact update_self _ _ _
      obtain rfl : s.kernel.accepted = n := Option.some.inj (he.symm.trans hn)
      cases hm
      omega
    · have hn' : s.kernel.files f = some n := (hkeep f hf).symm.trans hn
      exact htask.placed f n hn' hx

theorem sustains_controlRole (ht : Tracks vs owner s) (hp : Phase vs s) (htask : Tasks vs s)
    {fd : ℕ} (hmain : s.main = .accepted fd) {a calloc : Option ℕ}
    (ha : ∀ b, a = some b → s.control.conns b = none)
    (hfresh : ∀ p, calloc = some p → s.control.nodes p = none) :
    Sustains vs s (.controlRole a calloc) := by
  have hexit : s.main.exiting = false := by rw [hmain]; rfl
  have hacc : s.Holds vs .accepting fd := hmain
  have hmap : s.control.connMap fd = none := by
    by_contra hne
    have hin : s.Holds vs .connMap fd := Option.isSome_iff_ne_none.mpr hne
    exact tracks_ne ht hacc hin (by simp) rfl
  obtain ⟨L,hw⟩ := hp.wired
  obtain ⟨L',control,haccepted,hw',hcase⟩ := acceptControl_spec hw hmap ha hfresh
  have hstep : s.step (.controlRole a calloc) =
      some { s with control := control, main := .loop } := by
    simp only [Service.step,hmain,Service.acceptStep,haccepted,Option.bind_eq_bind,Option.bind_some]
  rcases hcase with ⟨hk,hin⟩ | ⟨hk,hm⟩
  · have hkernel : Service.kernel { s with control := control, main := .loop } = s.kernel := hk
    refine ⟨vs,_,_,hstep,tracks_moved .connMap ht ((ht.holds _ _).mp hacc) (by simp)
      (by simp) hkernel ?_,phase_running hp hexit rfl ⟨L',hw'⟩ (Nat.le_of_eq (by rw [hk]; rfl)),?_,
      [],List.nodup_nil,hk,by simp⟩
    · intro h f
      have hne : ∀ h', h' ≠ .accepting → s.Holds vs h' f → f ≠ fd := fun h' hh hf =>
        tracks_ne ht hacc hf hh
      cases h with
      | accepting =>
        constructor
        · intro hf
          cases hf
        · rintro (⟨_,he⟩ | ⟨hf,he⟩)
          · cases he
          · have he' : MainThread.accepted fd = .accepted f := hmain.symm.trans he
            cases he'
            exact absurd rfl hf
      | main =>
        exact moved_other (hne .main (by simp)) (by simp) (holds_main (by rw [hmain]; rfl) f)
      | connMap =>
        rw [show Service.Holds { s with control := control, main := .loop } vs .connMap f ↔
          f = fd ∨ (s.control.connMap f).isSome from hin f]
        constructor
        · rintro (rfl | hf)
          · exact .inl ⟨rfl,rfl⟩
          · exact .inr ⟨hne .connMap (by simp) hf,hf⟩
        · rintro (⟨hf,_⟩ | ⟨_,hf⟩)
          · exact .inl hf
          · exact .inr hf
      | queue => exact moved_other (hne .queue (by simp)) (by simp) Iff.rfl
      | worker i => exact moved_other (hne (.worker i) (by simp)) (by simp) Iff.rfl
    · refine tasks_frame htask rfl rfl rfl (fun _ _ => Iff.rfl) (Nat.le_of_eq (by rw [hkernel]))
        (fun x hx => by rw [hkernel]; exact hx) (fun f _ => by rw [hkernel])
        (fun _ f _ => by rw [hkernel]) (fun f n hn hx => ?_)
      exact htask.placed f n (by rwa [hkernel] at hn) hx
  · exact sustains_rejected ht hp htask hmain control hstep rfl rfl ⟨L',hw'⟩ hk hm

end Accepting

section Queue

theorem sustains_transferRole (ht : Tracks vs owner s) (hp : Phase vs s) (htask : Tasks vs s)
    {fd p : ℕ} (hmain : s.main = .accepted fd) (hfresh : s.pool.nodes p = none) :
    Sustains vs s (.transferRole p) := by
  have hexit : s.main.exiting = false := by rw [hmain]; rfl
  have hacc : s.Holds vs .accepting fd := hmain
  have hout : fd ∉ vs := fun hin =>
    tracks_ne ht hacc (show s.Holds vs .queue fd from hin) (by simp) rfl
  obtain ⟨n,hn⟩ := Option.isSome_iff_exists.mp (tracks_open ht hacc)
  obtain ⟨nodes,queue,henter,hqueue⟩ := Fifo.enter_holds hp.queue hfresh fd
  have hrun := phase_running hp hexit (show MainThread.loop.exiting = false from rfl) hp.wired
    (Nat.le_refl _)
  have hstep : s.step (.transferRole p) = some { s with
      pool := { s.pool with nodes := nodes, queue := queue }
      queued := s.queued ++ [s.kernel.files fd]
      main := .loop } := by
    simp only [Service.step,hmain,Service.acceptStep,Service.enQueue,henter,Option.bind_eq_bind,
      Option.bind_some]
  have hnew : some n ∉ s.queued := by
    intro hin
    rcases htask.placed fd n hn hin with hvs | ⟨i,hi⟩
    · exact hout hvs
    · exact tracks_ne ht hacc hi (by simp) rfl
  refine ⟨vs++[fd],_,_,hstep,tracks_moved .queue ht ((ht.holds _ _).mp hacc) (by simp)
    (by simp) rfl ?_,?_,?_,[],List.nodup_nil,rfl,by simp⟩
  · intro h f
    have hne : ∀ h', h' ≠ .accepting → s.Holds vs h' f → f ≠ fd := fun h' hh hf =>
      tracks_ne ht hacc hf hh
    cases h with
    | accepting =>
      constructor
      · intro hf
        cases hf
      · rintro (⟨_,he⟩ | ⟨hf,he⟩)
        · cases he
        · have he' : MainThread.accepted fd = .accepted f := hmain.symm.trans he
          cases he'
          exact absurd rfl hf
    | main => exact moved_other (hne .main (by simp)) (by simp) (holds_main (by rw [hmain]; rfl) f)
    | connMap => exact moved_other (hne .connMap (by simp)) (by simp) Iff.rfl
    | queue =>
      rw [Service.Holds,List.mem_append,List.mem_singleton]
      constructor
      · rintro (hf | hf)
        · exact .inr ⟨hne .queue (by simp) hf,hf⟩
        · exact .inl ⟨hf,rfl⟩
      · rintro (⟨hf,_⟩ | ⟨_,hf⟩)
        · exact .inr hf
        · exact .inl hf
    | worker i => exact moved_other (hne (.worker i) (by simp)) (by simp) Iff.rfl
  · exact ⟨hp.wired,hqueue,List.nodup_append.mpr ⟨hp.nodup,by simp,fun f hf g hg he =>
      hout (by rw [← List.mem_singleton.mp hg,← he]; exact hf)⟩,hp.five,hp.fds,hrun.exit,
      (fun h => by cases h),hrun.cleared,hrun.joined,hp.outside⟩
  · refine ⟨?_,?_,?_,?_,htask.served,htask.once,htask.pending,htask.taken,htask.dropped⟩
    · show s.queued ++ [s.kernel.files fd] = _ ++ (vs++[fd]).map s.kernel.files
      rw [htask.entered,List.map_append,List.append_assoc]
      rfl
    · intro x hx
      rcases List.mem_append.mp hx with hx | hx
      · exact htask.known x hx
      · refine ⟨n,(List.mem_singleton.mp hx).trans hn,?_⟩
        exact (ht.sound.opened n).mpr (.inl ⟨fd,hn⟩)
    · intro f m hm hx
      rcases List.mem_append.mp hx with hx | hx
      · rcases htask.placed f m hm hx with hvs | hw
        · exact .inl (by simp [hvs])
        · exact .inr hw
      · have he : some m = some n := (List.mem_singleton.mp hx).trans hn
        obtain rfl : f = fd := ht.sound.inj f fd m hm (by rw [hn,he])
        exact .inl (by simp)
    · refine List.nodup_append.mpr ⟨htask.distinct,by simp,fun x hx y hy he => ?_⟩
      rw [he,List.mem_singleton.mp hy,hn] at hx
      exact hnew hx

/-- The queue is emptied and all its descriptors are closed. -/
theorem drainQueue_spec (vs : List ℕ) : ∀ s : Service, Fifo.Holds s.pool.nodes s.pool.queue vs →
    vs.Nodup → ∃ nodes queue, Service.drainQueue vs.length s = some { s with
      control := { s.control with kernel := vs.foldl Kernel.close s.kernel }
      pool := { s.pool with nodes := nodes, queue := queue }
      left := s.left ++ vs.map fun fd => (none,s.kernel.files fd) } ∧ Fifo.Holds nodes queue [] := by
  induction vs with
  | nil =>
    intro s hq _
    refine ⟨s.pool.nodes,s.pool.queue,?_,hq⟩
    simp [Service.drainQueue,Service.kernel]
  | cons fd vs ih =>
    intro s hq hnd
    obtain ⟨hout,hnd⟩ := List.nodup_cons.mp hnd
    obtain ⟨nodes,queue,hleave,hq'⟩ := Fifo.leave_holds hq
    obtain ⟨nodes',queue',hdrain,hempty⟩ := ih (Service.closeFd { s with
      pool := { s.pool with nodes := nodes, queue := queue }
      left := s.left ++ [(none,s.kernel.files fd)] } fd) hq' hnd
    refine ⟨nodes',queue',?_,hempty⟩
    have hmap : vs.map (fun f => ((none : Option ℕ),(s.kernel.close fd).files f)) =
        vs.map fun f => (none,s.kernel.files f) := by
      refine List.map_congr_left fun f hf => ?_
      have hne : f ≠ fd := fun he => hout (he ▸ hf)
      simp [Kernel.close,hne]
    have hfirst : Service.drainQueue (fd::vs).length s = Service.drainQueue vs.length
        (Service.closeFd { s with
          pool := { s.pool with nodes := nodes, queue := queue }
          left := s.left ++ [(none,s.kernel.files fd)] } fd) := by
      simp [Service.drainQueue,Service.deQueue,hleave]
    rw [hfirst,hdrain]
    simp only [Service.closeFd,Service.setKernel,Service.kernel] at hmap ⊢
    rw [hmap]
    simp

theorem closeAll_closed (fds : List ℕ) (k : Kernel) (hnd : fds.Nodup) :
    ∀ fd ∈ fds, k.files fd ∈ (fds.foldl Kernel.close k).closes := by
  induction fds generalizing k with
  | nil => simp
  | cons f fds ih =>
    obtain ⟨hout,hnd⟩ := List.nodup_cons.mp hnd
    intro fd hfd
    rcases List.mem_cons.mp hfd with rfl | hfd
    · exact closeAll_closes fds (k.close fd) _ (by simp [Kernel.close])
    · have hne : fd ≠ f := fun he => hout (he ▸ hfd)
      have hold : (k.close f).files fd = k.files fd := update_of_ne hne _ _
      rw [List.foldl_cons,← hold]
      exact ih (k.close f) hnd fd hfd

theorem sustains_exit (ht : Tracks vs owner s) (hp : Phase vs s) (htask : Tasks vs s)
    (hmain : s.main = .loop) : Sustains vs s .exit := by
  obtain ⟨L,hw⟩ := hp.wired
  obtain ⟨nodes,queue,hdrain,hempty⟩ :=
    drainQueue_spec vs { s with pool := { s.pool with exitFlag := true } } hp.queue hp.nodup
  have hsize : s.pool.queue.size = vs.length := Fifo.holds_size hp.queue
  have hstep : s.step .exit = some { s with
      control := { s.control with kernel := vs.foldl Kernel.close s.kernel }
      pool := { s.pool with nodes := nodes, queue := queue, exitFlag := true }
      left := s.left ++ vs.map fun fd => (none,s.kernel.files fd)
      main := .closingListen } := by
    simp only [Service.step,Service.loopStep,hsize,hdrain,Option.bind_eq_bind,Option.bind_some]
    rfl
  have hqueue : ∀ fd ∈ vs, s.Holds vs .queue fd := fun fd hfd => hfd
  have hkeep : ∀ i fd, s.worker i = .taken fd → fd ∉ vs := fun i fd hfd hin => by
    have he := tracks_unique ht (h := .worker i) (.inl hfd) (hqueue fd hin)
    cases he
  refine ⟨[],_,_,hstep,tracks_closed vs ht hp.nodup (fun fd hfd => ?_) rfl ?_,?_,?_,vs,hp.nodup,
    rfl,fun fd hfd => ⟨.queue,hfd,rfl⟩⟩
  · rw [(ht.holds _ _).mp (hqueue fd hfd)]
    rfl
  · intro h f
    have hout : h ≠ .queue → s.Holds vs h f → f ∉ vs := fun hne hh hin =>
      hne (tracks_unique ht hh (hqueue f hin))
    cases h with
    | queue => simp [Service.Holds]
    | main => exact closed_other (hout (by simp)) (holds_main (by rw [hmain]; rfl) f)
    | accepting => exact closed_other (hout (by simp)) (by simp [Service.Holds,hmain])
    | connMap => exact closed_other (hout (by simp)) Iff.rfl
    | worker i => exact closed_other (hout (by simp)) Iff.rfl
  · refine ⟨⟨L,wired_kernel hw _⟩,hempty,List.nodup_nil,?_,hp.fds,rfl,fun _ => rfl,nofun,nofun,
      hp.outside⟩
    rw [show Service.kernel _ = vs.foldl Kernel.close s.kernel from rfl,closeAll_accepted]
    exact hp.five
  · refine ⟨?_,?_,?_,htask.distinct,?_,htask.once,?_,?_,?_⟩
    · rw [htask.entered]
      simp [List.map_append,Function.comp_def]
    · intro x hx
      obtain ⟨n,hn,hlt⟩ := htask.known x hx
      refine ⟨n,hn,?_⟩
      rw [show Service.kernel _ = vs.foldl Kernel.close s.kernel from rfl,closeAll_accepted]
      exact hlt
    · intro fd n hn hx
      have hn' : (vs.foldl Kernel.close s.kernel).files fd = some n := hn
      have hin : fd ∉ vs := by
        intro hin
        rw [(closed_files vs s.kernel fd).mpr (.inl hin)] at hn'
        cases hn'
      rw [kept_files vs _ hin] at hn'
      rcases htask.placed fd n hn' hx with hvs | hw
      · exact absurd hvs hin
      · exact .inr hw
    · intro i n hin
      exact List.mem_append_left _ (htask.served i n hin)
    · intro i n hin
      have hold : (some i,n) ∈ s.left := by
        rcases List.mem_append.mp hin with h | h
        · exact h
        · obtain ⟨fd,_,he⟩ := List.mem_map.mp h
          cases he
      rcases htask.pending i n hold with h | ⟨fd,hfd,hn⟩
      · exact .inl h
      · exact .inr ⟨fd,hfd,(kept_files vs _ (hkeep i fd hfd)).trans hn⟩
    · intro i fd hfd
      obtain ⟨hleft,hserved⟩ := htask.taken i fd hfd
      have hsame : (vs.foldl Kernel.close s.kernel).files fd = s.kernel.files fd :=
        kept_files vs _ (hkeep i fd hfd)
      show (some i,(vs.foldl Kernel.close s.kernel).files fd) ∈ s.left ++ _ ∧
        (i,(vs.foldl Kernel.close s.kernel).files fd) ∉ s.served
      rw [hsame]
      exact ⟨List.mem_append_left _ hleft,hserved⟩
    · intro n hin
      rcases List.mem_append.mp hin with h | h
      · exact closeAll_closes vs s.kernel n (htask.dropped n h)
      · obtain ⟨fd,hfd,he⟩ := List.mem_map.mp h
        cases he
        exact closeAll_closed vs s.kernel hp.nodup fd hfd

end Queue

section Workers

theorem phase_worker (hp : Phase vs s) {i : ℕ} (hi : i < s.num) {w : Worker} {k : Kernel}
    {pool : ThreadPool} {left : List (Option ℕ × Option ℕ)} {served : List (ℕ × Option ℕ)}
    {vs' : List ℕ} (hq : Fifo.Holds pool.nodes pool.queue vs') (hnd : vs'.Nodup)
    (hflag : pool.exitFlag = s.pool.exitFlag) (hvs : vs = [] → vs' = [])
    (hacc : k.accepted = s.kernel.accepted) (hw : s.worker i = .exited → w = .exited) :
    Phase vs' { s with
      control := { s.control with kernel := k }
      pool := pool
      worker := update s.worker i w
      left := left
      served := served } where
  wired := by
    obtain ⟨L,hw⟩ := hp.wired
    exact ⟨L,wired_kernel hw k⟩
  queue := hq
  nodup := hnd
  five := by
    show 5 ≤ k.accepted
    rw [hacc]
    exact hp.five
  fds := hp.fds
  exit := hflag.trans hp.exit
  drained h := hvs (hp.drained h)
  cleared := hp.cleared
  joined j hj := by
    have hold := hp.joined j hj
    by_cases hji : j = i
    · subst hji
      simp [hw hold]
    · simpa [hji] using hold
  outside j hj := by
    have hji : j ≠ i := by
      rintro rfl
      exact absurd hj (Nat.not_le.mpr hi)
    simpa [hji] using hp.outside j hj

theorem sustains_take (ht : Tracks vs owner s) (hp : Phase vs s) (htask : Tasks vs s) {i : ℕ}
    (hi : i < s.num) (hw : s.worker i = .waiting)
    (hawake : s.pool.exitFlag = true ∨ s.pool.queue.size ≠ 0) : Sustains vs s (.take i) := by
  have hnot : s.worker i ≠ .exited := by rw [hw]; simp
  by_cases hflag : s.pool.exitFlag = true
  · have hstep : s.step (.take i) = some { s with
        control := { s.control with kernel := s.kernel }
        pool := s.pool
        worker := update s.worker i .exited
        left := s.left
        served := s.served } := by
      simp only [Service.step,Service.workerStep,Service.takeTask,if_pos hflag]
      rfl
    have hholds : ∀ j f, (update s.worker i .exited j = .taken f ↔ s.worker j = .taken f) ∧
        (update s.worker i .exited j = .handled f ↔ s.worker j = .handled f) := by
      intro j f
      by_cases hji : j = i
      · subst hji
        simp [hw]
      · simp [hji]
    refine ⟨vs,owner,_,hstep,tracks_same ht rfl fun h f => ?_,
      phase_worker hp hi hp.queue hp.nodup rfl id rfl fun h => absurd h hnot,?_,[],List.nodup_nil,
      rfl,by simp⟩
    · cases h with
      | worker j => simp [Service.Holds,hholds]
      | main => exact Iff.rfl
      | accepting => exact Iff.rfl
      | connMap => exact Iff.rfl
      | queue => exact Iff.rfl
    · refine tasks_frame htask rfl rfl rfl (fun j f => (hholds j f).1) (Nat.le_refl _)
        (fun x hx => hx) (fun _ _ => rfl) (fun _ _ _ => rfl) (fun f n hn hx => ?_)
      rcases htask.placed f n hn hx with h | ⟨j,hj⟩
      · exact .inl h
      · exact .inr ⟨j,by simpa [Service.Holds,hholds] using hj⟩
  · have hsize : s.pool.queue.size ≠ 0 := hawake.resolve_left hflag
    have hlen : s.pool.queue.size = vs.length := Fifo.holds_size hp.queue
    obtain ⟨fd,rest,rfl⟩ : ∃ fd rest, vs = fd::rest := by
      rcases vs with _ | ⟨fd,rest⟩
      · exact absurd hlen hsize
      · exact ⟨fd,rest,rfl⟩
    obtain ⟨nodes,queue,hleave,hq⟩ := Fifo.leave_holds hp.queue
    obtain ⟨hout,hnd⟩ := List.nodup_cons.mp hp.nodup
    have hstep : s.step (.take i) = some { s with
        control := { s.control with kernel := s.kernel }
        pool := { s.pool with
          nodes := nodes
          queue := queue
          busyFds := update s.pool.busyFds i fd }
        worker := update s.worker i (.taken fd)
        left := s.left ++ [(some i,s.kernel.files fd)]
        served := s.served } := by
      simp only [Service.step,Service.workerStep,Service.takeTask,if_neg hflag,Service.deQueue,
        hleave,Option.bind_eq_bind,Option.bind_some]
      rfl
    have hqueue : s.Holds (fd::rest) .queue fd := List.mem_cons_self
    have hdis := htask.distinct
    rw [htask.entered] at hdis
    have hfresh : s.kernel.files fd ∉ s.left.map Prod.snd := by
      intro hin
      exact (List.nodup_append.mp hdis).2.2 _ hin _ (by simp) rfl
    refine ⟨rest,_,_,hstep,tracks_moved (.worker i) ht ((ht.holds _ _).mp hqueue) (by simp)
      (by simp) rfl ?_,phase_worker hp hi hq hnd rfl (by simp) rfl fun h => absurd h hnot,?_,[],
      List.nodup_nil,rfl,by simp⟩
    · intro h f
      have hne : ∀ h', h' ≠ .queue → s.Holds (fd::rest) h' f → f ≠ fd := fun h' hh hf =>
        tracks_ne ht hqueue hf hh
      cases h with
      | main => exact moved_other (hne .main (by simp)) (by simp) Iff.rfl
      | accepting => exact moved_other (hne .accepting (by simp)) (by simp) Iff.rfl
      | connMap => exact moved_other (hne .connMap (by simp)) (by simp) Iff.rfl
      | queue =>
        simp only [Service.Holds,List.mem_cons,reduceCtorEq,and_false,false_or]
        constructor
        · intro hf
          exact ⟨fun he => hout (he ▸ hf),.inr hf⟩
        · rintro ⟨hf,he | hf'⟩
          · exact absurd he hf
          · exact hf'
      | worker j =>
        by_cases hji : j = i
        · subst hji
          simp [Service.Holds,hw,eq_comm]
        · refine moved_other (hne (.worker j) (by simp)) (by simpa using hji) ?_
          simp [Service.Holds,hji]
    · refine ⟨?_,htask.known,?_,htask.distinct,?_,htask.once,?_,?_,?_⟩
      · show s.queued = (s.left ++ [(some i,s.kernel.files fd)]).map Prod.snd ++
          rest.map s.kernel.files
        rw [htask.entered]
        simp
      · intro f n hn hx
        rcases htask.placed f n hn hx with hvs | ⟨j,hj⟩
        · rcases List.mem_cons.mp hvs with rfl | hvs
          · exact .inr ⟨i,by simp [Service.Holds]⟩
          · exact .inl hvs
        · have hji : j ≠ i := by
            rintro rfl
            simp [Service.Holds,hw] at hj
          exact .inr ⟨j,by simpa [Service.Holds,hji] using hj⟩
      · exact fun j n hin => List.mem_append_left _ (htask.served j n hin)
      · intro j n hin
        rcases List.mem_append.mp hin with hin | hin
        · rcases htask.pending j n hin with h | ⟨f,hf,hn⟩
          · exact .inl h
          · have hji : j ≠ i := by
              rintro rfl
              rw [hw] at hf
              cases hf
            exact .inr ⟨f,by simpa [hji] using hf,hn⟩
        · obtain ⟨rfl,rfl⟩ : j = i ∧ n = s.kernel.files fd := by simpa using hin
          exact .inr ⟨fd,by simp,rfl⟩
      · intro j f hf
        by_cases hji : j = i
        · subst hji
          obtain rfl : fd = f := by simpa using hf
          refine ⟨by simp [Service.kernel],fun hin => hfresh ?_⟩
          exact List.mem_map.mpr ⟨_,htask.served j _ hin,rfl⟩
        · have hf' : s.worker j = .taken f := by simpa [hji] using hf
          obtain ⟨hleft,hserved⟩ := htask.taken j f hf'
          exact ⟨List.mem_append_left _ hleft,hserved⟩
      · intro n hin
        rcases List.mem_append.mp hin with hin | hin
        · exact htask.dropped n hin
        · simp at hin

theorem sustains_handle (ht : Tracks vs owner s) (hp : Phase vs s) (htask : Tasks vs s) {i fd : ℕ}
    (hi : i < s.num) (hw : s.worker i = .taken fd) : Sustains vs s (.handle i) := by
  have hnot : s.worker i ≠ .exited := by rw [hw]; simp
  have hstep : s.step (.handle i) = some { s with
      control := { s.control with kernel := s.kernel }
      pool := s.pool
      worker := update s.worker i (.handled fd)
      left := s.left
      served := s.served ++ [(i,s.kernel.files fd)] } := by
    simp only [Service.step,Service.workerStep,hw]
    rfl
  obtain ⟨hleft,hserved⟩ := htask.taken i fd hw
  refine ⟨vs,owner,_,hstep,tracks_same ht rfl fun h f => ?_,
    phase_worker hp hi hp.queue hp.nodup rfl id rfl fun h => absurd h hnot,?_,[],List.nodup_nil,
    rfl,by simp⟩
  · cases h with
    | worker j =>
      by_cases hji : j = i
      · subst hji
        simp [Service.Holds,hw]
      · simp [Service.Holds,hji]
    | main => exact Iff.rfl
    | accepting => exact Iff.rfl
    | connMap => exact Iff.rfl
    | queue => exact Iff.rfl
  · refine ⟨htask.entered,htask.known,?_,htask.distinct,?_,?_,?_,?_,htask.dropped⟩
    · intro f n hn hx
      rcases htask.placed f n hn hx with h | ⟨j,hj⟩
      · exact .inl h
      · refine .inr ⟨j,?_⟩
        by_cases hji : j = i
        · subst hji
          simpa [Service.Holds,hw] using hj
        · simpa [Service.Holds,hji] using hj
    · intro j n hin
      rcases List.mem_append.mp hin with hin | hin
      · exact htask.served j n hin
      · obtain ⟨rfl,rfl⟩ : j = i ∧ n = s.kernel.files fd := by simpa using hin
        exact hleft
    · refine List.nodup_append.mpr ⟨htask.once,by simp,fun x hx y hy he => ?_⟩
      rw [he,List.mem_singleton.mp hy] at hx
      exact hserved hx
    · intro j n hin
      rcases htask.pending j n hin with h | ⟨f,hf,hn⟩
      · exact .inl (List.mem_append_left _ h)
      · by_cases hji : j = i
        · subst hji
          obtain rfl : fd = f := by simpa [hw] using hf
          exact .inl (by simp [← hn,Service.kernel])
        · exact .inr ⟨f,by simpa [hji] using hf,hn⟩
    · intro j f hf
      have hji : j ≠ i := by
        rintro rfl
        simp at hf
      have hf' : s.worker j = .taken f := by simpa [hji] using hf
      obtain ⟨hl,hs⟩ := htask.taken j f hf'
      refine ⟨hl,fun hin => ?_⟩
      rcases List.mem_append.mp hin with hin | hin
      · exact hs hin
      · exact hji (Prod.mk.inj (List.mem_singleton.mp hin)).1

theorem sustains_close (ht : Tracks vs owner s) (hp : Phase vs s) (htask : Tasks vs s) {i fd : ℕ}
    (hi : i < s.num) (hw : s.worker i = .handled fd) : Sustains vs s (.close i) := by
  have hnot : s.worker i ≠ .exited := by rw [hw]; simp
  have hheld : s.Holds vs (.worker i) fd := .inr hw
  have hstep : s.step (.close i) = some { s with
      control := { s.control with kernel := s.kernel.close fd }
      pool := s.pool
      worker := update s.worker i .closed
      left := s.left
      served := s.served } := by
    simp only [Service.step,Service.workerStep,hw]
    rfl
  have hkeep : ∀ f, f ≠ fd → (s.kernel.close fd).files f = s.kernel.files f :=
    fun f hf => update_of_ne hf _ _
  have htaken : ∀ j f, update s.worker i .closed j = .taken f ↔ s.worker j = .taken f := by
    intro j f
    by_cases hji : j = i
    · subst hji
      simp [hw]
    · simp [hji]
  refine ⟨vs,_,_,hstep,tracks_closed [fd] ht (by simp) ?_ rfl fun h f => ?_,
    phase_worker hp hi hp.queue hp.nodup rfl id rfl fun h => absurd h hnot,?_,[fd],by simp,
    rfl,fun f hf => ⟨.worker i,?_,rfl⟩⟩
  · intro f hf
    obtain rfl : f = fd := by simpa using hf
    rw [(ht.holds _ _).mp hheld]
    rfl
  · have hout : h ≠ .worker i → s.Holds vs h f → f ∉ [fd] := fun hne hh => by
      simpa using tracks_ne ht hheld hh hne
    cases h with
    | worker j =>
      by_cases hji : j = i
      · subst hji
        simp only [Service.Holds,update_self,hw,reduceCtorEq,or_self,false_iff,List.mem_singleton]
        rintro ⟨hh | hh,hne⟩
        · cases hh
        · cases hh
          exact hne rfl
      · exact closed_other (hout (by simpa using hji)) (by simp [Service.Holds,hji])
    | main => exact closed_other (hout (by simp)) Iff.rfl
    | accepting => exact closed_other (hout (by simp)) Iff.rfl
    | connMap => exact closed_other (hout (by simp)) Iff.rfl
    | queue => exact closed_other (hout (by simp)) Iff.rfl
  · refine tasks_frame htask rfl rfl rfl htaken (Nat.le_refl _)
      (fun x hx => List.mem_append_left _ hx)
      (fun f hf => hkeep f (tracks_ne ht hheld (show s.Holds vs .queue f from hf) (by simp)))
      (fun j f hf => hkeep f ?_) (fun f n hn hx => ?_)
    · have hji : j ≠ i := by
        rintro rfl
        rw [hw] at hf
        cases hf
      exact tracks_ne ht hheld (show s.Holds vs (.worker j) f from .inl hf) (by simpa using hji)
    · have hfd : f ≠ fd := by
        rintro rfl
        have hnone : (s.kernel.close f).files f = none := update_self _ _ _
        have hn' : (s.kernel.close f).files f = some n := hn
        rw [hnone] at hn'
        cases hn'
      have hn' : s.kernel.files f = some n := (hkeep f hfd).symm.trans hn
      rcases htask.placed f n hn' hx with h | ⟨j,hj⟩
      · exact .inl h
      · have hji : j ≠ i := by
          rintro rfl
          rcases hj with hj | hj
          · rw [hw] at hj
            cases hj
          · rw [hw] at hj
            cases hj
            exact hfd rfl
        exact .inr ⟨j,by simpa [Service.Holds,hji] using hj⟩
  · obtain rfl : f = fd := by simpa using hf
    exact hheld

theorem sustains_clear (ht : Tracks vs owner s) (hp : Phase vs s) (htask : Tasks vs s) {i : ℕ}
    (hi : i < s.num) (hw : s.worker i = .closed) : Sustains vs s (.clear i) := by
  have hnot : s.worker i ≠ .exited := by rw [hw]; simp
  have hstep : s.step (.clear i) = some { s with
      control := { s.control with kernel := s.kernel }
      pool := { s.pool with busyFds := update s.pool.busyFds i (-1) }
      worker := update s.worker i .waiting
      left := s.left
      served := s.served } := by
    simp only [Service.step,Service.workerStep]
    rfl
  have hholds : ∀ j f, (update s.worker i .waiting j = .taken f ↔ s.worker j = .taken f) ∧
      (update s.worker i .waiting j = .handled f ↔ s.worker j = .handled f) := by
    intro j f
    by_cases hji : j = i
    · subst hji
      simp [hw]
    · simp [hji]
  refine ⟨vs,owner,_,hstep,tracks_same ht rfl fun h f => ?_,
    phase_worker hp hi hp.queue hp.nodup rfl id rfl fun h => absurd h hnot,?_,[],List.nodup_nil,
    rfl,by simp⟩
  · cases h with
    | worker j => simp [Service.Holds,hholds]
    | main => exact Iff.rfl
    | accepting => exact Iff.rfl
    | connMap => exact Iff.rfl
    | queue => exact Iff.rfl
  · refine tasks_frame htask rfl rfl rfl (fun j f => (hholds j f).1) (Nat.le_refl _)
      (fun x hx => hx) (fun _ _ => rfl) (fun _ _ _ => rfl) (fun f n hn hx => ?_)
    rcases htask.placed f n hn hx with h | ⟨j,hj⟩
    · exact .inl h
    · exact .inr ⟨j,by simpa [Service.Holds,hholds] using hj⟩

end Workers

section Runs

theorem acceptAll_files (fds : List ℕ) (k : Kernel) (fd : ℕ) :
    (fds.foldl Kernel.accept k).files fd = none ↔ fd ∉ fds ∧ k.files fd = none := by
  induction fds generalizing k with
  | nil => simp
  | cons f fds ih =>
    rw [List.foldl_cons,ih]
    by_cases hf : fd = f
    · subst hf
      simp [Kernel.accept]
    · simp [Kernel.accept,hf]

theorem kernel_acceptAll (fds : List ℕ) {k : Kernel} (hs : k.Sound) (hnd : fds.Nodup)
    (hfree : ∀ fd ∈ fds, k.files fd = none) : (fds.foldl Kernel.accept k).Sound := by
  induction fds generalizing k with
  | nil => exact hs
  | cons fd fds ih =>
    obtain ⟨hout,hnd⟩ := List.nodup_cons.mp hnd
    refine ih (kernel_accept hs (hfree fd (by simp))) hnd fun f hf => ?_
    have hne : f ≠ fd := fun he => hout (he ▸ hf)
    simpa [Kernel.accept,hne] using hfree f (by simp [hf])

theorem tracks_init (d : MainFds) (num timeoutSec : ℕ) (hd : d.all.Nodup) :
    Tracks [] (fun fd => if d.all.contains fd then some .main else none)
      (serviceInit d num timeoutSec) := by
  have hfiles : ∀ fd, (d.all.foldl Kernel.accept emptyKernel).files fd = none ↔ fd ∉ d.all := by
    intro fd
    rw [acceptAll_files]
    simp [emptyKernel]
  have hsound : (d.all.foldl Kernel.accept emptyKernel).Sound :=
    kernel_acceptAll d.all kernel_empty hd fun _ _ => rfl
  have hopen : ∀ fd, ((d.all.foldl Kernel.accept emptyKernel).files fd).isSome ↔ fd ∈ d.all := by
    intro fd
    rw [Option.isSome_iff_ne_none,ne_eq,hfiles,not_not]
  refine ⟨hsound,fun h fd => ?_,fun fd => ?_,fun fd n hn => ?_⟩
  · cases h with
    | main => simp [Service.Holds,serviceInit,MainThread.own]
    | accepting => simp [Service.Holds,serviceInit]
    | connMap => simp [Service.Holds,serviceInit]
    | queue => simp [Service.Holds]
    | worker i => simp [Service.Holds,serviceInit]
  · rw [show (serviceInit d num timeoutSec).kernel = d.all.foldl Kernel.accept emptyKernel from rfl,
      hopen]
    simp
  · have hin : fd ∈ d.all := (hopen fd).mp (Option.isSome_iff_exists.mpr ⟨n,hn⟩)
    have hlt : n < 5 := (hsound.opened n).mpr (.inl ⟨fd,hn⟩)
    simp [hin,hlt]

theorem phase_init (d : MainFds) (num timeoutSec : ℕ) (hd : d.all.Nodup) :
    Phase [] (serviceInit d num timeoutSec) where
  wired := ⟨_,wired_init timeoutSec _⟩
  queue := Fifo.holds_empty _
  nodup := List.nodup_nil
  five := Nat.le_refl 5
  fds := hd
  exit := rfl
  drained _ := rfl
  cleared _ _ := rfl
  joined i hi := absurd hi (Nat.not_lt_zero i)
  outside _ _ := rfl

theorem tasks_init (d : MainFds) (num timeoutSec : ℕ) : Tasks [] (serviceInit d num timeoutSec) where
  entered := rfl
  known := nofun
  placed _ _ _ := nofun
  distinct := List.nodup_nil
  served _ _ := nofun
  once := List.nodup_nil
  pending _ _ := nofun
  taken _ _ := nofun
  dropped _ := nofun

theorem sustains_step (ht : Tracks vs owner s) (hp : Phase vs s) (htask : Tasks vs s)
    {e : ServiceEvent} (he : s.Enabled e) : Sustains vs s e := by
  obtain ⟨L,hw⟩ := hp.wired
  cases e with
  | accept fd => exact sustains_accept ht hp htask he.1 he.2
  | initFailed =>
    obtain ⟨fd,hmain⟩ := he
    refine sustains_rejected ht hp htask hmain
      { s.control with kernel := s.kernel.close fd } ?_ rfl rfl
      ⟨L,wired_kernel hw _⟩ rfl rfl
    simp only [Service.step,hmain,Service.acceptStep]
    rfl
  | invalidRole =>
    obtain ⟨fd,hmain⟩ := he
    refine sustains_rejected ht hp htask hmain
      { s.control with kernel := s.kernel.close fd } ?_ rfl rfl
      ⟨L,wired_kernel hw _⟩ rfl rfl
    simp only [Service.step,hmain,Service.acceptStep]
    rfl
  | controlRole a calloc =>
    obtain ⟨⟨fd,hmain⟩,ha,hfresh⟩ := he
    exact sustains_controlRole ht hp htask hmain ha hfresh
  | transferRole p =>
    obtain ⟨⟨fd,hmain⟩,hfresh⟩ := he
    exact sustains_transferRole ht hp htask hmain hfresh
  | control fd received calloc => exact sustains_control ht hp htask he
  | timer n => exact sustains_timer ht hp htask he
  | exit => exact sustains_exit ht hp htask he
  | closeListen => exact sustains_closeListen ht hp htask he
  | closeControl =>
    obtain ⟨k,hmain⟩ := he
    exact sustains_closeControl ht hp htask hmain
  | join =>
    obtain ⟨i,hmain,_,hi⟩ := he
    exact sustains_join ht hp htask hmain hi
  | finish => exact sustains_finish ht hp htask he
  | take i => exact sustains_take ht hp htask he.1 he.2.1 he.2.2
  | handle i =>
    obtain ⟨hi,fd,hw⟩ := he
    exact sustains_handle ht hp htask hi hw
  | close i =>
    obtain ⟨hi,fd,hw⟩ := he
    exact sustains_close ht hp htask hi hw
  | clear i => exact sustains_clear ht hp htask he.1 he.2

theorem sustained_run {d : MainFds} {num timeoutSec : ℕ} (hrun : ServiceRun d num timeoutSec s) :
    ∃ vs owner, Tracks vs owner s ∧ Phase vs s ∧ Tasks vs s := by
  induction hrun with
  | start hd => exact ⟨_,_,tracks_init d num timeoutSec hd,phase_init d num timeoutSec hd,
      tasks_init d num timeoutSec⟩
  | step _ he hnext ih =>
    obtain ⟨vs,owner,ht,hp,htask⟩ := ih
    obtain ⟨vs',owner',s₁,hstep,ht',hp',htask',_⟩ := sustains_step ht hp htask he
    obtain rfl := Option.some.inj (hstep.symm.trans hnext)
    exact ⟨vs',owner',ht',hp',htask'⟩

/-- Once `main` has returned, no descriptor is open. -/
theorem returned_closed (ht : Tracks vs owner s) (hp : Phase vs s) (hmain : s.main = .returned)
    (fd : ℕ) : s.kernel.files fd = none := by
  by_contra hne
  have hsome := (ht.files fd).mpr (Option.isSome_iff_ne_none.mpr hne)
  obtain ⟨h,hh⟩ := Option.isSome_iff_exists.mp hsome
  have hheld := (ht.holds h fd).mpr hh
  have hvs : vs = [] := hp.drained (by rw [hmain]; rfl)
  cases h with
  | main =>
    rw [Service.Holds,hmain] at hheld
    cases hheld
  | accepting =>
    rw [Service.Holds,hmain] at hheld
    cases hheld
  | connMap =>
    obtain ⟨L,hw⟩ := hp.wired
    obtain ⟨a,ha⟩ := Option.isSome_iff_exists.mp hheld
    obtain ⟨c,hc,rfl⟩ := hw.mapped fd a ha
    have hnone := hp.cleared c.fd (by rw [hmain]; exact (hw.owned a c hc).2)
    rw [hnone] at ha
    cases ha
  | queue =>
    rw [hvs] at hheld
    cases hheld
  | worker i =>
    by_cases hi : i < s.num
    · have hexit := hp.joined i (by rw [hmain]; exact hi)
      rw [Service.Holds,hexit] at hheld
      rcases hheld with h | h <;> cases h
    · have hwait := hp.outside i (Nat.not_lt.mp hi)
      rw [Service.Holds,hwait] at hheld
      rcases hheld with h | h <;> cases h

/-- In every reachable state an open descriptor is at exactly one place; the
next step of any thread closes only open descriptors of its own, each once; what
enters the queue leaves it once and in order, to be served by the worker that
took it or closed by the exit branch; and after `main` every file is closed once. -/
theorem descriptors_owned {d : MainFds} {num timeoutSec : ℕ} {s : Service}
    (hrun : ServiceRun d num timeoutSec s) :
    ∃ vs, Fifo.Holds s.pool.nodes s.pool.queue vs ∧ vs.Nodup ∧
      (∀ h fd, s.Holds vs h fd → (s.kernel.files fd).isSome) ∧
      (∀ fd n, s.kernel.files fd = some n →
        ∃ h, s.Holds vs h fd ∧ (h = .main ↔ n < 5) ∧ ∀ h', s.Holds vs h' fd → h' = h) ∧
      (∀ e, s.Enabled e → ∃ s', s.step e = some s' ∧ ∃ fds : List ℕ, fds.Nodup ∧
        s'.kernel = fds.foldl Kernel.close (s.opened e) ∧
        ∀ fd ∈ fds, (s.kernel.files fd).isSome ∧ ∃ h, s.Holds vs h fd ∧ e.closer h) ∧
      s.queued = s.left.map Prod.snd ++ vs.map s.kernel.files ∧ s.queued.Nodup ∧
      (∀ i n, (i,n) ∈ s.served → (some i,n) ∈ s.left) ∧ s.served.Nodup ∧
      (∀ i n, (some i,n) ∈ s.left → (i,n) ∈ s.served ∨
        ∃ fd, s.worker i = .taken fd ∧ s.kernel.files fd = n) ∧
      (∀ n, (none,n) ∈ s.left → n ∈ s.kernel.closes) ∧
      s.kernel.closes.Nodup ∧ (∀ x ∈ s.kernel.closes, ∃ n < s.kernel.accepted, x = some n) ∧
      (s.main = .returned → ∀ n < s.kernel.accepted, some n ∈ s.kernel.closes) := by
  obtain ⟨vs,owner,ht,hp,htask⟩ := sustained_run hrun
  refine ⟨vs,hp.queue,hp.nodup,fun h fd => tracks_open ht,fun fd n hn => ?_,fun e he => ?_,
    htask.entered,htask.distinct,htask.served,htask.once,htask.pending,htask.dropped,
    ht.sound.once,fun x hx => ?_,fun hmain n hn => ?_⟩
  · have hsome := (ht.files fd).mpr (Option.isSome_iff_exists.mpr ⟨n,hn⟩)
    obtain ⟨h,hh⟩ := Option.isSome_iff_exists.mp hsome
    have hheld := (ht.holds h fd).mpr hh
    refine ⟨h,hheld,?_,fun h' hh' => tracks_unique ht hh' hheld⟩
    rw [← ht.mains fd n hn,hh]
    simp
  · obtain ⟨vs',owner',s',hstep,_,_,_,fds,hnd,hk,hfds⟩ := sustains_step ht hp htask he
    refine ⟨s',hstep,fds,hnd,hk,fun fd hfd => ?_⟩
    obtain ⟨h,hh,hcl⟩ := hfds fd hfd
    exact ⟨tracks_open ht hh,h,hh,hcl⟩
  · obtain ⟨n,rfl,_⟩ := ht.sound.closed x hx
    exact ⟨n,(ht.sound.opened n).mpr (.inr hx),rfl⟩
  · rcases (ht.sound.opened n).mp hn with ⟨fd,hfd⟩ | hin
    · rw [returned_closed ht hp hmain fd] at hfd
      cases hfd
    · exact hin

/-- Two workers serve two connections, the descriptors 8 and 9, while the client of a
control connection leaves. -/
theorem two_transfers_owned : ∃ s, ServiceRun ⟨3,4,5,6,7⟩ 2 120 s ∧
    s.served = [(0,some 5),(1,some 6)] ∧ s.kernel.closes = [some 6,some 7,some 5] ∧
      s.kernel.closes.Nodup := by
  have hqueued : ServiceRun ⟨3,4,5,6,7⟩ 2 120 _ :=
    .step (.step (.step (.step (.start (by decide))
      (e := .accept 8) ⟨rfl,rfl⟩ rfl) (e := .transferRole 0) ⟨⟨8,rfl⟩,rfl⟩ rfl)
      (e := .accept 9) ⟨rfl,rfl⟩ rfl) (e := .transferRole 1) ⟨⟨9,rfl⟩,rfl⟩ rfl
  have htaken : ServiceRun ⟨3,4,5,6,7⟩ 2 120 _ :=
    .step (.step (.step (.step hqueued
      (e := .take 0) ⟨by decide,rfl,.inr (by decide)⟩ rfl)
      (e := .handle 0) ⟨by decide,8,rfl⟩ rfl)
      (e := .take 1) ⟨by decide,rfl,.inr (by decide)⟩ rfl)
      (e := .handle 1) ⟨by decide,9,rfl⟩ rfl
  have hrun : ServiceRun ⟨3,4,5,6,7⟩ 2 120 _ :=
    .step (.step (.step (.step (.step htaken
      (e := .accept 10) ⟨rfl,rfl⟩ rfl)
      (e := .controlRole (some 0) (some 0)) ⟨⟨10,rfl⟩,fun _ _ => rfl,fun _ _ => rfl⟩ rfl)
      (e := .close 1) ⟨by decide,9,rfl⟩ rfl)
      (e := .control 10 none none) ⟨rfl,by simp⟩ rfl)
      (e := .close 0) ⟨by decide,8,rfl⟩ rfl
  obtain ⟨_,_,_,_,_,_,_,_,_,_,_,_,hnd,_⟩ := descriptors_owned hrun
  exact ⟨_,hrun,rfl,rfl,hnd⟩

end Runs

end WindCloud
