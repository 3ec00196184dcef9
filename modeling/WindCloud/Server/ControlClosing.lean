import WindCloud.Server.TimeWheelSafety

/-!
# What the main thread does to the map of control connections

Registration adds an entry or closes the descriptor; every other action closes
the descriptors whose entries it removes. Allocations may fail here.
-/

set_option autoImplicit false

namespace WindCloud
open Function Links

variable {L : ℕ → List ℕ} {s s' : Control}

/-- The map has lost exactly the entries under `fds`, whose descriptors were closed. -/
structure Unmapped (fds : List ℕ) (s s' : Control) : Prop where
  map : ∀ fd, (s'.connMap fd).isSome ↔ (s.connMap fd).isSome ∧ fd ∉ fds
  kernel : s'.kernel = fds.foldl Kernel.close s.kernel
  nodup : fds.Nodup
  mapped : ∀ fd ∈ fds, (s.connMap fd).isSome

theorem unmapped_nil (hm : ∀ fd, (s'.connMap fd).isSome ↔ (s.connMap fd).isSome)
    (hk : s'.kernel = s.kernel) : Unmapped [] s s' :=
  ⟨fun fd => by simp [hm],hk,List.nodup_nil,by simp⟩

theorem unmapped_cleared {fds : List ℕ} (hclear : Cleared fds s s') (hnd : fds.Nodup)
    (hmapped : ∀ fd ∈ fds, (s.connMap fd).isSome) : Unmapped fds s s' := by
  refine ⟨fun fd => ?_,hclear.kernel,hnd,hmapped⟩
  rw [Option.isSome_iff_exists,Option.isSome_iff_exists]
  constructor
  · rintro ⟨a,ha⟩
    obtain ⟨ha,hout⟩ := (hclear.map fd a).mp ha
    exact ⟨⟨a,ha⟩,hout⟩
  · rintro ⟨⟨a,ha⟩,hout⟩
    exact ⟨a,(hclear.map fd a).mpr ⟨ha,hout⟩⟩

theorem handleTimerEvent_unmapped (hw : Wired L s) (n : ℕ) :
    ∃ fds L' s', Control.handleTimerEvent n s = some s' ∧ Wired L' s' ∧ Unmapped fds s s' := by
  obtain ⟨fds,L',s',hrun,hw',hclear,hnd,hmapped⟩ := handleTimerEvent_cleared n L s hw
  exact ⟨fds,L',s',hrun,hw',unmapped_cleared hclear hnd hmapped⟩

theorem closeControlConnection_unmapped (hw : Wired L s) (fd : ℕ) :
    ∃ fds L' s', s.closeControlConnection fd = some s' ∧ Wired L' s' ∧ Unmapped fds s s' ∧
      (fd < maxControlFd → s'.connMap fd = none) ∧ ∀ f ∈ fds, f = fd := by
  cases hm : s.connMap fd with
  | none =>
    refine ⟨[],L,s,?_,hw,unmapped_nil (fun _ => Iff.rfl) rfl,fun _ => hm,by simp⟩
    simp [Control.closeControlConnection,hm]
  | some a =>
    obtain ⟨c,slots,nodes,hc,rfl,hclose,hw'⟩ := closeControlConnection_spec hw hm
    have hclear := cleared_dropped hw hc slots nodes
    refine ⟨[c.fd],_,_,hclose,hw',unmapped_cleared hclear (by simp) (by simp [hm]),fun _ => ?_,
      by simp⟩
    simp [Control.dropped]

theorem handleControlEvent_unmapped (hw : Wired L s) (fd : ℕ) (received : Option ClientContext)
    {calloc : Option ℕ} (hfresh : ∀ p, calloc = some p → s.nodes p = none) :
    ∃ fds L' s', s.handleControlEvent fd received calloc = some s' ∧ Wired L' s' ∧
      Unmapped fds s s' := by
  by_cases hmax : maxControlFd ≤ fd
  · refine ⟨[],L,s,?_,hw,unmapped_nil (fun _ => Iff.rfl) rfl⟩
    simp only [Control.handleControlEvent,if_pos hmax]
  cases hm : s.connMap fd with
  | none =>
    refine ⟨[],L,s,?_,hw,unmapped_nil (fun _ => Iff.rfl) rfl⟩
    simp only [Control.handleControlEvent,if_neg hmax,hm]
  | some a =>
    cases received with
    | none =>
      obtain ⟨fds,L',s',hclose,hw',hs,_⟩ := closeControlConnection_unmapped hw fd
      refine ⟨fds,L',s',?_,hw',hs⟩
      simp only [Control.handleControlEvent,if_neg hmax,hm,hclose]
    | some ctx =>
      obtain ⟨c,hc,_⟩ := hw.mapped fd a hm
      have hw₁ := wired_ctx hw hc ctx
      have hself : (s.setConn a { c with ctx := ctx }).conns a = some { c with ctx := ctx } :=
        update_self _ _ _
      have hrun : s.handleControlEvent fd (some ctx) calloc =
          (s.setConn a { c with ctx := ctx }).timeWheelRefresh a calloc := by
        simp only [Control.handleControlEvent,if_neg hmax,hm,hc,Option.bind_eq_bind,
          Option.bind_some]
      rw [hrun]
      rcases Option.eq_none_or_eq_some c.wheelNode with hn | ⟨p,hn⟩
      · rw [timeWheelRefresh_null hself hn]
        cases calloc with
        | none =>
          exact ⟨[],L,_,timeWheelAdd_null hself hn,hw₁,unmapped_nil (fun _ => Iff.rfl) rfl⟩
        | some p =>
          obtain ⟨slots,nodes,hplaced,hw'⟩ := timeWheelAdd_spec hw₁ hself hn (hfresh p rfl)
          exact ⟨[],_,_,hplaced,hw',unmapped_nil (fun _ => Iff.rfl) rfl⟩
      · obtain ⟨slots,nodes,hrefresh,hw'⟩ := timeWheelRefresh_spec hw₁ hself hn calloc
        exact ⟨[],_,_,hrefresh,hw',unmapped_nil (fun _ => Iff.rfl) rfl⟩

theorem acceptControl_spec (hw : Wired L s) {fd : ℕ} (hmap : s.connMap fd = none) {a calloc : Option ℕ}
    (ha : ∀ b, a = some b → s.conns b = none) (hfresh : ∀ p, calloc = some p → s.nodes p = none) :
    ∃ L' s', s.acceptControl fd a calloc = some s' ∧ Wired L' s' ∧
      ((s'.kernel = s.kernel ∧
          ∀ f, (s'.connMap f).isSome ↔ f = fd ∨ (s.connMap f).isSome) ∨
        (s'.kernel = s.kernel.close fd ∧ s'.connMap = s.connMap)) := by
  by_cases hmax : maxControlFd ≤ fd
  · refine ⟨L,{ s with kernel := s.kernel.close fd },?_,wired_kernel hw _,.inr ⟨rfl,rfl⟩⟩
    simp [Control.acceptControl,Control.registerControlConnection,hmax]
  cases a with
  | none =>
    refine ⟨L,{ s with kernel := s.kernel.close fd },?_,wired_kernel hw _,.inr ⟨rfl,rfl⟩⟩
    simp [Control.acceptControl,Control.registerControlConnection,hmax]
  | some a =>
    have hw₁ := wired_newConn hw (Nat.not_le.mp hmax) (ha a rfl) hmap
    have hself : (s.newConn a fd).conns a = some (controlConnInit fd) := update_self _ _ _
    have hin : ∀ f, ((s.newConn a fd).connMap f).isSome ↔ f = fd ∨ (s.connMap f).isSome := by
      intro f
      by_cases hf : f = fd
      · subst hf
        simp [Control.newConn]
      · simp [Control.newConn,hf]
    have hrun : ∀ s', (s.newConn a fd).timeWheelAdd a calloc = some s' →
        s.acceptControl fd (some a) calloc = some s' := by
      intro s' hs'
      simp [Control.acceptControl,Control.registerControlConnection,hmax,hs']
    cases calloc with
    | none => exact ⟨L,_,hrun _ (timeWheelAdd_null hself rfl),hw₁,.inl ⟨rfl,hin⟩⟩
    | some p =>
      obtain ⟨slots,nodes,hplaced,hw'⟩ := timeWheelAdd_spec hw₁ hself rfl (hfresh p rfl)
      exact ⟨_,_,hrun _ hplaced,hw',.inl ⟨rfl,hin⟩⟩

end WindCloud
