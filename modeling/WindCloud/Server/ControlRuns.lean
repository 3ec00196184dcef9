import WindCloud.Server.TimeWheelSafety

/-!
# Runs of the control connections

Registrations, commands, disconnections and ticks in any order. The last time a
connection was seen is read off the events, independently of the wheel.
-/

set_option autoImplicit false

namespace WindCloud
open Function Links

/-- What the main thread meets; `a` and `p` are the addresses `calloc` returns. -/
inductive ControlEvent where
  | register (fd a p : ℕ)
  | command (fd : ℕ) (ctx : ClientContext) (p : ℕ)
  | disconnect (fd : ℕ)
  | ticks (n : ℕ)
  deriving DecidableEq, Repr

def controlStep (s : Control) : ControlEvent → Option Control
  | .register fd a p =>
    Control.acceptControl { s with kernel := s.kernel.accept fd } fd (some a) (some p)
  | .command fd ctx p => s.handleControlEvent fd (some ctx) (some p)
  | .disconnect fd => s.handleControlEvent fd none none
  | .ticks n => Control.handleTimerEvent n s

/-- A descriptor from `accept` is not open, and memory from `calloc` not allocated. -/
def Admissible (s : Control) : ControlEvent → Prop
  | .register fd a p => s.kernel.files fd = none ∧ s.conns a = none ∧ s.nodes p = none
  | .command _ _ p => s.nodes p = none
  | _ => True

def controlInit (timeoutSec : ℕ) : Control :=
  ⟨timeWheelInit timeoutSec,fun _ => none,fun _ => none,fun _ => none,⟨fun _ => none,0,[]⟩⟩

/-- The states after a list of events, the newest first. -/
inductive ControlRun (timeoutSec : ℕ) : List ControlEvent → Control → Prop
  | start : ControlRun timeoutSec [] (controlInit timeoutSec)
  | step {es : List ControlEvent} {s s' : Control} {e : ControlEvent}
      (run : ControlRun timeoutSec es s) (admissible : Admissible s e)
      (next : controlStep s e = some s') : ControlRun timeoutSec (e::es) s'

def ticksOf : List ControlEvent → ℕ
  | [] => 0
  | .ticks n::es => ticksOf es+n
  | _::es => ticksOf es

/-- The tick at which `fd` was last registered or sent a command. -/
def lastSeen (fd : ℕ) : List ControlEvent → ℕ
  | [] => 0
  | .register f _ _::es => if f = fd then ticksOf es else lastSeen fd es
  | .command f _ _::es => if f = fd then ticksOf es else lastSeen fd es
  | _::es => lastSeen fd es

variable {timeoutSec : ℕ} {es : List ControlEvent} {L : ℕ → List ℕ} {s s' : Control}

/-- The wheel agrees with the history of events. -/
structure Timed (timeoutSec : ℕ) (es : List ControlEvent) (L : ℕ → List ℕ) (s : Control) :
    Prop where
  wired : Wired L s
  due : NotDue (s.wheel.currentTick+1) s
  tick : s.wheel.currentTick = ticksOf es
  timeout : s.wheel.timeoutSec = timeoutSec
  conn : ∀ a c, s.conns a = some c →
    c.wheelNode.isSome ∧ c.expireTick = lastSeen c.fd es+timeoutSec
  files : ∀ fd, s.kernel.files fd = none ↔ s.connMap fd = none

theorem timed_init (timeoutSec : ℕ) : Timed timeoutSec [] (fun _ => []) (controlInit timeoutSec) where
  wired := wired_init timeoutSec _
  due _ _ _ hc := nomatch hc
  tick := rfl
  timeout := rfl
  conn _ _ hc := nomatch hc
  files fd := by simp [controlInit]

theorem timed_conn (ht : Timed timeoutSec es L s) {fd a : ℕ} (hm : s.connMap fd = some a) :
    ∃ c p, s.conns a = some c ∧ c.fd = fd ∧ c.wheelNode = some p := by
  obtain ⟨c,hc,hfd⟩ := ht.wired.mapped fd a hm
  obtain ⟨p,hn⟩ := Option.isSome_iff_exists.mp (ht.conn a c hc).1
  exact ⟨c,p,hc,hfd,hn⟩

theorem timed_idle (ht : Timed timeoutSec es L s) {e : ControlEvent} (hk : ticksOf (e::es) = ticksOf es)
    (hseen : ∀ fd, s.connMap fd ≠ none → lastSeen fd (e::es) = lastSeen fd es) :
    Timed timeoutSec (e::es) L s where
  wired := ht.wired
  due := ht.due
  tick := by rw [hk,ht.tick]
  timeout := ht.timeout
  conn a c hc := by
    rw [hseen c.fd (by simp [(ht.wired.owned a c hc).1])]
    exact ht.conn a c hc
  files := ht.files

theorem notDue_placed {t : ℕ} {a p : ℕ} {c : ControlConn} (hdue : NotDue t s)
    (ht : t ≤ s.wheel.currentTick+s.wheel.timeoutSec) (slots : ℕ → Option ℕ) (nodes : Heap ℕ) :
    NotDue t (s.placed a c p slots nodes) := by
  intro b d q hd hn
  by_cases hb : b = a
  · subst hb
    obtain rfl : s.renewed c p = d := by simpa using hd
    exact ht
  · rw [placed_other _ _ hb] at hd
    exact hdue b d q hd hn

theorem timed_register (hT : 1 ≤ timeoutSec) (ht : Timed timeoutSec es L s) {fd a p : ℕ}
    (hok : Admissible s (.register fd a p)) :
    ∃ L' s', controlStep s (.register fd a p) = some s' ∧
      Timed timeoutSec (.register fd a p::es) L' s' := by
  obtain ⟨hfd,ha,hp⟩ := hok
  have hmap : s.connMap fd = none := (ht.files fd).mp hfd
  have hseen : ∀ f, f ≠ fd → lastSeen f (.register fd a p::es) = lastSeen f es :=
    fun f hf => if_neg hf.symm
  have hother : ∀ b d, s.conns b = some d → d.fd ≠ fd := by
    intro b d hd he
    have hm := (ht.wired.owned b d hd).1
    rw [he,hmap] at hm
    cases hm
  by_cases hmax : maxControlFd ≤ fd
  · refine ⟨L,{ s with kernel := (s.kernel.accept fd).close fd },?_,
      ⟨wired_kernel ht.wired _,ht.due,ht.tick,ht.timeout,?_,?_⟩⟩
    · simp [controlStep,Control.acceptControl,Control.registerControlConnection,hmax]
    · intro b d hd
      rw [hseen d.fd (hother b d hd)]
      exact ht.conn b d hd
    · intro f
      rw [← ht.files f]
      by_cases hf : f = fd
      · subst hf
        simp [Kernel.close,Kernel.accept,hfd]
      · simp [Kernel.close,Kernel.accept,hf]
  · have hw₁ := wired_newConn (wired_kernel ht.wired (s.kernel.accept fd)) (Nat.not_le.mp hmax) ha hmap
    obtain ⟨slots,nodes,hadd,hw'⟩ :=
      timeWheelAdd_spec hw₁ (c := controlConnInit fd) (update_self _ _ _) rfl hp
    have hdue₁ : NotDue (s.wheel.currentTick+1)
        (Control.newConn { s with kernel := s.kernel.accept fd } a fd) := by
      intro b d q hd hn
      by_cases hb : b = a
      · subst hb
        obtain rfl : controlConnInit fd = d := by simpa [Control.newConn] using hd
        cases hn
      · exact ht.due b d q (by simpa [Control.newConn,hb] using hd) hn
    have hle : s.wheel.currentTick+1 ≤ s.wheel.currentTick+s.wheel.timeoutSec := by
      rw [ht.timeout]
      omega
    refine ⟨_,_,?_,hw',notDue_placed hdue₁ hle slots nodes,ht.tick,ht.timeout,?_,?_⟩
    · simp only [controlStep,Control.acceptControl,Control.registerControlConnection,if_neg hmax,hadd,
        Option.bind_eq_bind,Option.bind_some,if_true]
    · intro b d hd
      by_cases hb : b = a
      · subst hb
        obtain rfl := Option.some.inj ((placed_self _ _).symm.trans hd)
        refine ⟨rfl,?_⟩
        rw [← ht.timeout]
        simp [Control.renewed,Control.newConn,controlConnInit,lastSeen,ht.tick]
      · rw [placed_other _ _ hb] at hd
        have hd' : s.conns b = some d := by simpa [Control.newConn,hb] using hd
        rw [hseen d.fd (hother b d hd')]
        exact ht.conn b d hd'
    · intro f
      by_cases hf : f = fd
      · subst hf
        simp [Control.placed,Control.newConn,Kernel.accept]
      · simpa [Control.placed,Control.newConn,Kernel.accept,hf] using ht.files f

theorem timed_command (hT : 1 ≤ timeoutSec) (ht : Timed timeoutSec es L s) (fd : ℕ)
    (ctx : ClientContext) (p : ℕ) :
    ∃ L' s', controlStep s (.command fd ctx p) = some s' ∧
      Timed timeoutSec (.command fd ctx p::es) L' s' := by
  have hseen : ∀ f, f ≠ fd → lastSeen f (.command fd ctx p::es) = lastSeen f es :=
    fun f hf => if_neg hf.symm
  by_cases hmap : s.connMap fd = none
  · refine ⟨L,s,?_,timed_idle ht rfl fun f hf => hseen f fun he => hf (he ▸ hmap)⟩
    simp [controlStep,Control.handleControlEvent,hmap]
  · obtain ⟨a,hm⟩ := Option.ne_none_iff_exists'.mp hmap
    obtain ⟨c,p₀,hc,hcfd,hn⟩ := timed_conn ht hm
    have hmax : ¬ maxControlFd ≤ fd := by
      have := (ht.wired.owned a c hc).2
      omega
    have hw₁ := wired_ctx ht.wired hc ctx
    obtain ⟨slots,nodes,hrefresh,hw'⟩ :=
      timeWheelRefresh_spec hw₁ (c := { c with ctx := ctx }) (update_self _ _ _) hn (some p)
    have hdue₁ : NotDue (s.wheel.currentTick+1) (s.setConn a { c with ctx := ctx }) := by
      intro b d q hd hq
      by_cases hb : b = a
      · subst hb
        obtain rfl : { c with ctx := ctx } = d := by simpa [Control.setConn] using hd
        exact ht.due b c q hc hq
      · exact ht.due b d q (by simpa [Control.setConn,hb] using hd) hq
    have hle : s.wheel.currentTick+1 ≤ s.wheel.currentTick+s.wheel.timeoutSec := by
      rw [ht.timeout]
      omega
    refine ⟨_,_,?_,hw',notDue_placed hdue₁ hle slots nodes,ht.tick,ht.timeout,?_,ht.files⟩
    · simp only [controlStep,Control.handleControlEvent,if_neg hmax,hm,hc,hrefresh,
        Option.bind_eq_bind,Option.bind_some]
    · intro b d hd
      by_cases hb : b = a
      · subst hb
        obtain rfl := Option.some.inj ((placed_self _ _).symm.trans hd)
        refine ⟨rfl,?_⟩
        rw [← ht.timeout]
        simp [Control.renewed,Control.setConn,lastSeen,ht.tick,hcfd]
      · rw [placed_other _ _ hb] at hd
        have hd' : s.conns b = some d := by simpa [Control.setConn,hb] using hd
        have hf : d.fd ≠ fd := by
          intro he
          have hown := (ht.wired.owned b d hd').1
          rw [he,hm] at hown
          exact hb (Option.some.inj hown).symm
        rw [hseen d.fd hf]
        exact ht.conn b d hd'

theorem timed_cleared {fds : List ℕ} {L' : ℕ → List ℕ} {e : ControlEvent}
    (ht : Timed timeoutSec es L s) (hw : Wired L' s') (hclear : Cleared fds s s')
    (hdue : NotDue (s'.wheel.currentTick+1) s') (htick : s'.wheel.currentTick = ticksOf (e::es))
    (hseen : ∀ fd, lastSeen fd (e::es) = lastSeen fd es) :
    Timed timeoutSec (e::es) L' s' where
  wired := hw
  due := hdue
  tick := htick
  timeout := hclear.timeout.trans ht.timeout
  conn a c hc := by
    rw [hseen]
    exact ht.conn a c ((hclear.conns a c).mp hc).1
  files fd := by
    rw [hclear.kernel,closed_files,ht.files]
    have hmap := hclear.map fd
    constructor
    · intro hor
      by_contra hne
      obtain ⟨a,ha⟩ := Option.ne_none_iff_exists'.mp hne
      obtain ⟨ha₀,hout⟩ := (hmap a).mp ha
      rcases hor with hin | hnone
      · exact hout hin
      · rw [hnone] at ha₀
        cases ha₀
    · intro hnone
      by_contra hcon
      obtain ⟨hout,hne⟩ := not_or.mp hcon
      obtain ⟨a,ha⟩ := Option.ne_none_iff_exists'.mp hne
      have := (hmap a).mpr ⟨ha,hout⟩
      rw [hnone] at this
      cases this

theorem timed_disconnect (ht : Timed timeoutSec es L s) (fd : ℕ) :
    ∃ L' s', controlStep s (.disconnect fd) = some s' ∧
      Timed timeoutSec (.disconnect fd::es) L' s' := by
  by_cases hmap : s.connMap fd = none
  · refine ⟨L,s,?_,timed_idle ht rfl fun _ _ => rfl⟩
    simp [controlStep,Control.handleControlEvent,hmap]
  · obtain ⟨a,hm⟩ := Option.ne_none_iff_exists'.mp hmap
    obtain ⟨c,slots,nodes,hc,rfl,hclose,hw'⟩ := closeControlConnection_spec ht.wired hm
    have hmax : ¬ maxControlFd ≤ c.fd := Nat.not_le.mpr (ht.wired.owned a c hc).2
    have hclear := cleared_dropped ht.wired hc slots nodes
    refine ⟨_,_,?_,timed_cleared ht hw' hclear ?_ ht.tick fun _ => rfl⟩
    · simp only [controlStep,Control.handleControlEvent,if_neg hmax,hm,hclose]
    · exact fun b d q hd hq => ht.due b d q ((hclear.conns b d).mp hd).1 hq

theorem timed_ticks (ht : Timed timeoutSec es L s) (n : ℕ) :
    ∃ L' s', controlStep s (.ticks n) = some s' ∧ Timed timeoutSec (.ticks n::es) L' s' := by
  obtain ⟨fds,L',s',hrun,hw',hclear,_,htick,hdue,_⟩ := handleTimerEvent_spec n L s ht.wired ht.due
  refine ⟨L',s',hrun,timed_cleared ht hw' hclear hdue ?_ fun _ => rfl⟩
  rw [htick,ht.tick]
  rfl

theorem timed_step (hT : 1 ≤ timeoutSec) (ht : Timed timeoutSec es L s) {e : ControlEvent}
    (hok : Admissible s e) :
    ∃ L' s', controlStep s e = some s' ∧ Timed timeoutSec (e::es) L' s' := by
  cases e with
  | register fd a p => exact timed_register hT ht hok
  | command fd ctx p => exact timed_command hT ht fd ctx p
  | disconnect fd => exact timed_disconnect ht fd
  | ticks n => exact timed_ticks ht n

theorem timed_run (hT : 1 ≤ timeoutSec) (hrun : ControlRun timeoutSec es s) :
    ∃ L, Timed timeoutSec es L s := by
  induction hrun with
  | start => exact ⟨_,timed_init timeoutSec⟩
  | step _ hok hnext ih =>
    obtain ⟨L,ht⟩ := ih
    obtain ⟨L',s₁,hstep,ht'⟩ := timed_step hT ht hok
    obtain rfl := Option.some.inj (hstep.symm.trans hnext)
    exact ⟨L',ht'⟩

/-- Exactly one node of the wheel stands for the connection at `a`. -/
def OneNode (L : ℕ → List ℕ) (s : Control) (a : ℕ) (c : ControlConn) : Prop :=
  ∃ p, c.wheelNode = some p ∧ p ∈ L (c.expireTick % timeWheelSlotCount) ∧
    ∀ k < timeWheelSlotCount, ∀ q ∈ L k, (s.nodes q).map nodeConn = some a ↔
      k = c.expireTick % timeWheelSlotCount ∧ q = p

/-- In every run the map holds exactly the open control connections, each of
them with one node, in the slot of its time, which lies ahead; no memory is used
that is not allocated; and ticks close exactly the connections last seen
`timeoutSec` ticks before one of them. -/
theorem control_connections_timed {timeoutSec : ℕ} {es : List ControlEvent} {s : Control}
    (hT : 1 ≤ timeoutSec) (hrun : ControlRun timeoutSec es s) :
    (∀ e, Admissible s e → (controlStep s e).isSome) ∧
    (∀ fd, (s.connMap fd).isSome ↔ (s.kernel.files fd).isSome) ∧
    (∃ L, Table s.wheel.slots s.nodes timeWheelSlotCount L ∧
      ∀ fd a, s.connMap fd = some a → ∃ c, s.conns a = some c ∧ c.fd = fd ∧
        s.wheel.currentTick < c.expireTick ∧ OneNode L s a c) ∧
    ∀ n s', controlStep s (.ticks n) = some s' → ∃ fds : List ℕ, fds.Nodup ∧
      s'.kernel = fds.foldl Kernel.close s.kernel ∧
      ∀ fd, fd ∈ fds ↔ (s.kernel.files fd).isSome ∧
        ∃ t, ticksOf es < t ∧ t ≤ ticksOf es+n ∧ lastSeen fd es+timeoutSec = t := by
  obtain ⟨L,ht⟩ := timed_run hT hrun
  have hfiles : ∀ fd, (s.connMap fd).isSome ↔ (s.kernel.files fd).isSome := by
    intro fd
    rw [Option.isSome_iff_ne_none,Option.isSome_iff_ne_none,ne_eq,ne_eq,ht.files]
  refine ⟨fun e hok => ?_,hfiles,⟨L,ht.wired.table,fun fd a hm => ?_⟩,fun n s' hnext => ?_⟩
  · obtain ⟨_,_,hstep,_⟩ := timed_step hT ht hok
    simp [hstep]
  · obtain ⟨c,p,hc,hfd,hn⟩ := timed_conn ht hm
    obtain ⟨k,hk,_,hke,hp,hv⟩ := ht.wired.conn a c p hc hn
    refine ⟨c,hc,hfd,ht.due a c p hc hn,p,hn,by rwa [hke],fun j hj q hq => ⟨fun hqa => ?_,?_⟩⟩
    · obtain ⟨b,d,hd,hn',_,hv'⟩ := wired_node_owner ht.wired hj hq
      obtain rfl : b = a := Option.some.inj (hv'.symm.trans hqa)
      obtain rfl : c = d := Option.some.inj (hc.symm.trans hd)
      obtain rfl : p = q := Option.some.inj (hn.symm.trans hn')
      exact ⟨(ht.wired.table.apart j hj k hk p hq hp).trans hke.symm,rfl⟩
    · rintro ⟨_,rfl⟩
      exact hv
  · obtain ⟨fds,_,s₁,hstep,_,hclear,hnd,_,_,hfds⟩ :=
      handleTimerEvent_spec n L s ht.wired ht.due
    obtain rfl := Option.some.inj (hstep.symm.trans hnext)
    refine ⟨fds,hnd,hclear.kernel,fun fd => ?_⟩
    rw [hfds,← hfiles,← ht.tick]
    constructor
    · rintro ⟨a,c,hc,rfl,hsome,hle⟩
      obtain ⟨p,hn⟩ := Option.isSome_iff_exists.mp hsome
      refine ⟨by simp [(ht.wired.owned a c hc).1],c.expireTick,ht.due a c p hc hn,hle,?_⟩
      exact (ht.conn a c hc).2.symm
    · rintro ⟨hsome,t,_,hle,he⟩
      obtain ⟨a,hm⟩ := Option.isSome_iff_exists.mp hsome
      obtain ⟨c,p,hc,rfl,hn⟩ := timed_conn ht hm
      exact ⟨a,c,hc,rfl,by simp [hn],by rw [(ht.conn a c hc).2,he]; exact hle⟩

/-- Two connections, and a command over the second one, the newest event first. -/
def twoConnections : List ControlEvent :=
  [.command 8 ⟨1,"/".toList,0⟩ 2,.ticks 1,.register 8 1 1,.register 7 0 0]

/-- The next tick closes the connection that has been idle, and not the other one. -/
theorem idle_connection_closed : ∃ s s', ControlRun 2 twoConnections s ∧
    controlStep s (.ticks 1) = some s' ∧ (s.kernel.files 7).isSome ∧
      s'.kernel.files 7 = none ∧ (s'.kernel.files 8).isSome := by
  have hrun : ControlRun 2 twoConnections _ :=
    .step (.step (.step (.step .start ⟨rfl,rfl,rfl⟩ rfl) ⟨rfl,rfl,rfl⟩ rfl) trivial rfl) rfl rfl
  obtain ⟨hsafe,_,_,hticks⟩ := control_connections_timed (by decide) hrun
  obtain ⟨s',hs'⟩ := Option.isSome_iff_exists.mp (hsafe (.ticks 1) trivial)
  obtain ⟨fds,_,hkernel,hfds⟩ := hticks 1 s' hs'
  refine ⟨_,s',hrun,hs',rfl,?_,?_⟩
  · rw [hkernel,closed_files]
    exact .inl ((hfds 7).mpr ⟨rfl,2,by decide,by decide,by decide⟩)
  · rw [Option.isSome_iff_ne_none,ne_eq,hkernel,closed_files]
    rintro (hin | hnone)
    · obtain ⟨_,t,_,hle,hseen⟩ := (hfds 8).mp hin
      have hlast : lastSeen 8 twoConnections = 1 := rfl
      have hticks : ticksOf twoConnections = 1 := rfl
      omega
    · cases hnone

end WindCloud
