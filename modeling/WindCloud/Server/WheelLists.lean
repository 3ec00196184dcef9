import WindCloud.Lib.Runs
import WindCloud.Server.ControlRuns

/-!
# The time wheel as lists

What the wheel is for: lists of connections, one for each slot, in which a
connection goes to the front or is deleted. The wheel in memory does the same, whatever
the connections are called upon, and never touches memory that is not allocated.
-/

set_option autoImplicit false

namespace WindCloud
open Function Links

/-- The connections of each slot, the tick at which each is due, and the time. -/
structure WheelLists where
  slots : ℕ → List ℕ
  due : ℕ → ℕ
  tick : ℕ

namespace WheelLists

def init : WheelLists := ⟨fun _ => [],fun _ => 0,0⟩

def Linked (A : WheelLists) (a : ℕ) : Prop := ∃ k < timeWheelSlotCount, a ∈ A.slots k

instance (A : WheelLists) (a : ℕ) : Decidable (A.Linked a) :=
  inferInstanceAs (Decidable (∃ k < timeWheelSlotCount, a ∈ A.slots k))

def link (A : WheelLists) (timeoutSec a : ℕ) : WheelLists :=
  { A with
    slots := pushed A.slots ((A.tick+timeoutSec) % timeWheelSlotCount) a
    due := update A.due a (A.tick+timeoutSec) }

def delete (A : WheelLists) (a : ℕ) : WheelLists := { A with slots := erased A.slots (some a) }

def advance (A : WheelLists) : WheelLists :=
  { A with
    slots := update A.slots ((A.tick+1) % timeWheelSlotCount)
      ((A.slots ((A.tick+1) % timeWheelSlotCount)).filter fun a => A.tick+1 < A.due a)
    tick := A.tick+1 }

end WheelLists

/-- What is asked of the wheel. `connect` allocates a connection, `close` frees one;
`calloc` is the address of a new node, should one be needed. -/
inductive WheelEvent where
  | connect (fd a : ℕ)
  | add (a : ℕ) (calloc : Option ℕ)
  | refresh (a : ℕ) (calloc : Option ℕ)
  | remove (a : ℕ)
  | close (a : ℕ)
  | tick

def wheelStep (s : Control) : WheelEvent → Option Control
  | .connect fd a => some (s.newConn a fd)
  | .add a calloc => s.timeWheelAdd a calloc
  | .refresh a calloc => s.timeWheelRefresh a calloc
  | .remove a => s.timeWheelRemove a
  | .close a => s.handleControlTimeout a
  | .tick => s.timeWheelTick

def listStep (timeoutSec : ℕ) (A : WheelLists) : WheelEvent → WheelLists
  | .connect _ _ => A
  | .add a calloc => if calloc.isSome then A.link timeoutSec a else A
  | .refresh a calloc =>
    if A.Linked a ∨ calloc.isSome then (A.delete a).link timeoutSec a else A
  | .remove a => A.delete a
  | .close a => A.delete a
  | .tick => A.advance

/-- Memory from `calloc` is not allocated, and `time_wheel_add` is called for a
connection that is not in the wheel. -/
def WheelPermitted (s : Control) : WheelEvent → Prop
  | .connect fd a => fd < maxControlFd ∧ s.connMap fd = none ∧ s.conns a = none
  | .add a calloc => (∃ c, s.conns a = some c ∧ c.wheelNode = none) ∧
      ∀ p, calloc = some p → s.nodes p = none
  | .refresh a calloc => (∃ c, s.conns a = some c) ∧ ∀ p, calloc = some p → s.nodes p = none
  | .remove a => ∃ c, s.conns a = some c
  | .close a => ∃ c, s.conns a = some c
  | .tick => True

def connsOf (s : Control) (ps : List ℕ) : List ℕ := ps.filterMap fun p => (s.nodes p).map Cell.val

/-- The lists `L` of nodes in memory are the lists `A` of connections. -/
structure ShowsLists (timeoutSec : ℕ) (A : WheelLists) (L : ℕ → List ℕ) (s : Control) : Prop where
  wired : Wired L s
  slots : ∀ k < timeWheelSlotCount, A.slots k = connsOf s (L k)
  due : ∀ a c p, s.conns a = some c → c.wheelNode = some p → c.expireTick = A.due a
  tick : s.wheel.currentTick = A.tick
  timeout : s.wheel.timeoutSec = timeoutSec

section Lists

variable {α β : Type} {f : α → Option β} {l : List α}

theorem filterMap_erase [DecidableEq α] [DecidableEq β] {x : α} {y : β} (hx : f x = some y)
    (huniq : ∀ z ∈ l, f z = some y → z = x) :
    (l.filterMap f).erase y = (l.erase x).filterMap f := by
  induction l with
  | nil => rfl
  | cons z l ih =>
    have hl := ih fun w hw => huniq w (List.mem_cons_of_mem _ hw)
    by_cases hz : z = x
    · subst hz
      rw [List.filterMap_cons_some hx,List.erase_cons_head,List.erase_cons_head]
    · rw [List.erase_cons_tail (by simpa using hz)]
      cases hf : f z with
      | none => rw [List.filterMap_cons_none hf,List.filterMap_cons_none hf,hl]
      | some w =>
        have hw : w ≠ y := fun h => hz (huniq z (by simp) (h ▸ hf))
        rw [List.filterMap_cons_some hf,List.filterMap_cons_some hf,
          List.erase_cons_tail (by simpa using hw),hl]

theorem filterMap_filter_of {p : α → Bool} {q : β → Bool}
    (h : ∀ z ∈ l, ∃ y, f z = some y ∧ p z = q y) :
    (l.filterMap f).filter q = (l.filter p).filterMap f := by
  induction l with
  | nil => rfl
  | cons z l ih =>
    have hl := ih fun w hw => h w (List.mem_cons_of_mem _ hw)
    obtain ⟨y,hf,hpq⟩ := h z (by simp)
    rw [List.filterMap_cons_some hf]
    cases hq : q y with
    | true =>
      rw [List.filter_cons_of_pos hq,List.filter_cons_of_pos (hpq.trans hq),
        List.filterMap_cons_some hf,hl]
    | false =>
      rw [List.filter_cons_of_neg (by rw [hq]; decide),
        List.filter_cons_of_neg (by rw [hpq,hq]; decide),hl]

end Lists

section Contents

variable {timeoutSec : ℕ} {A : WheelLists} {L L' : ℕ → List ℕ} {s s' : Control} {a k p : ℕ}
  {c : ControlConn}

theorem val_kept (hw : Wired L s) (hw' : Wired L' s') (hk : k < timeWheelSlotCount) (hp : p ∈ L k)
    (hsame : ∀ a c, s.conns a = some c → c.wheelNode = some p →
      ∃ c', s'.conns a = some c' ∧ c'.wheelNode = some p) :
    (s'.nodes p).map Cell.val = (s.nodes p).map Cell.val := by
  obtain ⟨a,c,hc,hn,-,hv⟩ := wired_node_owner hw hk hp
  obtain ⟨c',hc',hn'⟩ := hsame a c hc hn
  obtain ⟨_,_,_,_,_,hv'⟩ := hw'.conn a c' p hc' hn'
  rw [hv,hv']

theorem connsOf_congr {ps : List ℕ}
    (h : ∀ p ∈ ps, (s'.nodes p).map Cell.val = (s.nodes p).map Cell.val) :
    connsOf s' ps = connsOf s ps :=
  List.filterMap_congr h

theorem connsOf_erased (hw : Wired L s) (hc : s.conns a = some c) (hk : k < timeWheelSlotCount) :
    (connsOf s (L k)).erase a = connsOf s (erased L c.wheelNode k) := by
  have howner : ∀ q ∈ L k, (s.nodes q).map Cell.val = some a → c.wheelNode = some q := by
    intro q hq hv
    obtain ⟨b,d,hd,hn,-,hv'⟩ := wired_node_owner hw hk hq
    obtain rfl : b = a := Option.some.inj (hv'.symm.trans hv)
    obtain rfl : d = c := Option.some.inj (hd.symm.trans hc)
    exact hn
  cases hn : c.wheelNode with
  | none =>
    refine List.erase_of_not_mem fun hin => ?_
    obtain ⟨q,hq,hv⟩ := List.mem_filterMap.mp hin
    rw [howner q hq hv] at hn
    cases hn
  | some p =>
    obtain ⟨_,_,_,_,_,hv⟩ := hw.conn a c p hc hn
    refine filterMap_erase hv fun q hq hv' => ?_
    exact (Option.some.inj (hn.symm.trans (howner q hq hv'))).symm

theorem linked_iff (hA : ShowsLists timeoutSec A L s) (hc : s.conns a = some c) :
    A.Linked a ↔ c.wheelNode.isSome := by
  constructor
  · rintro ⟨k,hk,hin⟩
    rw [hA.slots k hk] at hin
    obtain ⟨q,hq,hv⟩ := List.mem_filterMap.mp hin
    obtain ⟨b,d,hd,hn,-,hv'⟩ := wired_node_owner hA.wired hk hq
    obtain rfl : b = a := Option.some.inj (hv'.symm.trans hv)
    obtain rfl : d = c := Option.some.inj (hd.symm.trans hc)
    rw [hn]
    rfl
  · intro hsome
    obtain ⟨p,hn⟩ := Option.isSome_iff_exists.mp hsome
    obtain ⟨k,hk,_,_,hp,hv⟩ := hA.wired.conn a c p hc hn
    refine ⟨k,hk,?_⟩
    rw [hA.slots k hk]
    exact List.mem_filterMap.mpr ⟨p,hp,hv⟩

end Contents

section Steps

variable {timeoutSec : ℕ} {A : WheelLists} {L L' : ℕ → List ℕ} {s s' : Control} {a p : ℕ}
  {c : ControlConn}

theorem mem_erased_of {node : Option ℕ} {k q : ℕ} (h : q ∈ erased L node k) : q ∈ L k := by
  cases node with
  | none => exact h
  | some p => exact List.mem_of_mem_erase h

theorem erased_other (hw : Wired L s) (hc : s.conns a = some c) {k q : ℕ}
    (hk : k < timeWheelSlotCount) (hq : q ∈ erased L c.wheelNode k) : c.wheelNode ≠ some q := by
  intro hn
  obtain ⟨j,ps,qs,hj,-,hL⟩ := wired_split hw hc hn
  rw [hn] at hq
  exact ((mem_erased hw.table hj hk hL).mp hq).2 rfl

theorem shows_deleted (hA : ShowsLists timeoutSec A L s) (hc : s.conns a = some c)
    (hw : Wired (erased L c.wheelNode) s') (hothers : ∀ b, b ≠ a → s'.conns b = s.conns b)
    (hnone : ∀ d, s'.conns a = some d → d.wheelNode = none)
    (htick : s'.wheel.currentTick = s.wheel.currentTick)
    (htimeout : s'.wheel.timeoutSec = s.wheel.timeoutSec) :
    ShowsLists timeoutSec (A.delete a) (erased L c.wheelNode) s' := by
  refine ⟨hw,fun k hk => ?_,fun b d q hd hn => ?_,htick.trans hA.tick,htimeout.trans hA.timeout⟩
  · show (A.slots k).erase a = _
    rw [hA.slots k hk,connsOf_erased hA.wired hc hk]
    refine (connsOf_congr fun q hq => ?_).symm
    refine val_kept hA.wired hw hk (mem_erased_of hq) fun b d hd hn => ?_
    have hb : b ≠ a := by
      rintro rfl
      obtain rfl : c = d := Option.some.inj (hc.symm.trans hd)
      exact erased_other hA.wired hc hk hq hn
    exact ⟨d,(hothers b hb).trans hd,hn⟩
  · have hb : b ≠ a := by
      rintro rfl
      rw [hnone d hd] at hn
      cases hn
    exact hA.due b d q ((hothers b hb).symm.trans hd) hn

theorem shows_linked (A₀ : WheelLists) (hA : ShowsLists timeoutSec A L s) (hc : s.conns a = some c)
    {slots : ℕ → Option ℕ} {nodes : Heap ℕ}
    (hw : Wired (pushed (erased L c.wheelNode) s.dueSlot p) (s.placed a c p slots nodes))
    (hslots : ∀ k < timeWheelSlotCount, A₀.slots k = (A.slots k).erase a) (hdue : A₀.due = A.due)
    (htick : A₀.tick = A.tick) :
    ShowsLists timeoutSec (A₀.link timeoutSec a) (pushed (erased L c.wheelNode) s.dueSlot p)
      (s.placed a c p slots nodes) := by
  have hslot : (A₀.tick+timeoutSec) % timeWheelSlotCount = s.dueSlot := by
    rw [htick,← hA.tick,← hA.timeout]
    rfl
  have hrest : ∀ k < timeWheelSlotCount, A₀.slots k =
      connsOf (s.placed a c p slots nodes) (erased L c.wheelNode k) := by
    intro k hk
    rw [hslots k hk,hA.slots k hk,connsOf_erased hA.wired hc hk]
    refine (connsOf_congr fun q hq => ?_).symm
    refine val_kept hA.wired hw hk (mem_erased_of hq) fun b d hd hn => ?_
    have hb : b ≠ a := by
      rintro rfl
      obtain rfl : c = d := Option.some.inj (hc.symm.trans hd)
      exact erased_other hA.wired hc hk hq hn
    exact ⟨d,(placed_other _ _ hb).trans hd,hn⟩
  have hself : ((s.placed a c p slots nodes).nodes p).map Cell.val = some a := by
    obtain ⟨_,_,_,_,_,hv⟩ := hw.conn a _ p (placed_self slots nodes) rfl
    exact hv
  refine ⟨hw,fun k hk => ?_,fun b d q hd hn => ?_,?_,hA.timeout⟩
  · show pushed A₀.slots _ a k = _
    rw [hslot]
    unfold pushed
    by_cases hkd : k = s.dueSlot
    · subst hkd
      rw [update_self,update_self,hrest _ hk]
      have hfront := List.filterMap_cons_some (l := erased L c.wheelNode s.dueSlot)
        (f := fun q => ((s.placed a c p slots nodes).nodes q).map Cell.val) hself
      exact hfront.symm
    · rw [update_of_ne hkd,update_of_ne hkd,hrest k hk]
  · show _ = update A₀.due a (A₀.tick+timeoutSec) b
    by_cases hb : b = a
    · subst hb
      obtain rfl : s.renewed c p = d := by simpa using hd
      rw [update_self,htick,← hA.tick,← hA.timeout]
      rfl
    · rw [update_of_ne hb,hdue]
      exact hA.due b d q ((placed_other _ _ hb).symm.trans hd) hn
  · exact hA.tick.trans htick.symm

/-- The connection `a` is still there, without its node. -/
def Control.unlinked (s : Control) (a : ℕ) (c : ControlConn) (slots : ℕ → Option ℕ) (nodes : Heap ℕ) :
    Control :=
  Control.setConn { s with wheel := { s.wheel with slots := slots }, nodes := nodes } a
    { c with wheelSlot := -1, wheelNode := none }

theorem unlinked_self {slots : ℕ → Option ℕ} {nodes : Heap ℕ} :
    (s.unlinked a c slots nodes).conns a = some { c with wheelSlot := -1, wheelNode := none } :=
  update_self _ _ _

theorem unlinked_other {slots : ℕ → Option ℕ} {nodes : Heap ℕ} {b : ℕ} (hb : b ≠ a) :
    (s.unlinked a c slots nodes).conns b = s.conns b := update_of_ne hb _ _

theorem wired_unlinked (hw : Wired L s) (hc : s.conns a = some c) {slots : ℕ → Option ℕ}
    {nodes : Heap ℕ} (hdropped : Wired L' (s.dropped a c.fd slots nodes)) :
    Wired L' (s.unlinked a c slots nodes) := by
  have hself : (s.unlinked a c slots nodes).conns a = _ := unlinked_self
  have hgone : (s.dropped a c.fd slots nodes).conns a = none := update_self _ _ _
  have hother : ∀ b, b ≠ a → (s.dropped a c.fd slots nodes).conns b =
      (s.unlinked a c slots nodes).conns b := by
    intro b hb
    rw [unlinked_other hb]
    exact update_of_ne hb _ _
  refine ⟨hdropped.table,?_,?_,?_,?_⟩
  · intro k hk q hq
    obtain ⟨b,d,hd,hn,hs⟩ := hdropped.node k hk q hq
    have hb : b ≠ a := by
      rintro rfl
      rw [hgone] at hd
      cases hd
    exact ⟨b,d,(hother b hb).symm.trans hd,hn,hs⟩
  · intro b d q hd hn
    have hb : b ≠ a := by
      rintro rfl
      obtain rfl := Option.some.inj (hself.symm.trans hd)
      cases hn
    exact hdropped.conn b d q ((hother b hb).trans hd) hn
  · intro fd b hb
    obtain ⟨d,hd,hfd⟩ := hw.mapped fd b hb
    by_cases hba : b = a
    · subst hba
      obtain rfl : c = d := Option.some.inj (hc.symm.trans hd)
      exact ⟨_,hself,hfd⟩
    · exact ⟨d,(unlinked_other hba).trans hd,hfd⟩
  · intro b d hd
    by_cases hb : b = a
    · subst hb
      obtain rfl := Option.some.inj (hself.symm.trans hd)
      exact hw.owned b c hc
    · exact hw.owned b d ((unlinked_other hb).symm.trans hd)

theorem timeWheelRemove_spec (hw : Wired L s) (hc : s.conns a = some c) (hn : c.wheelNode = some p) :
    ∃ slots nodes, s.timeWheelRemove a = some (s.unlinked a c slots nodes) ∧
      Wired (erased L c.wheelNode) (s.unlinked a c slots nodes) := by
  obtain ⟨k,ps,qs,hk,hs,hL⟩ := wired_split hw hc hn
  obtain ⟨slots,nodes,hdetach,htable,hval⟩ := detachNode_spec hw hc hk hs hn hL
  obtain ⟨⟨n,hnode⟩,hwired⟩ := wired_freed hw hc hn hk hL htable hval
  refine ⟨slots,update nodes p none,?_,wired_unlinked hw hc hwired⟩
  simp [Control.timeWheelRemove,hc,hn,hdetach,free,hnode,Control.unlinked]

theorem shows_remove (hA : ShowsLists timeoutSec A L s) (hc : s.conns a = some c) :
    ∃ s', s.timeWheelRemove a = some s' ∧
      ShowsLists timeoutSec (A.delete a) (erased L c.wheelNode) s' := by
  cases hn : c.wheelNode with
  | none =>
    refine ⟨s,by simp [Control.timeWheelRemove,hc,hn],?_⟩
    rw [← hn]
    refine shows_deleted hA hc ?_ (fun _ _ => rfl) (fun d hd => ?_) rfl rfl
    · rw [hn]
      exact hA.wired
    · rw [← Option.some.inj (hc.symm.trans hd)]
      exact hn
  | some p =>
    obtain ⟨slots,nodes,hremove,hw⟩ := timeWheelRemove_spec hA.wired hc hn
    rw [← hn]
    refine ⟨_,hremove,shows_deleted hA hc hw (fun b hb => unlinked_other hb) (fun d hd => ?_) rfl rfl⟩
    obtain rfl := Option.some.inj (unlinked_self.symm.trans hd)
    rfl

theorem shows_close (hA : ShowsLists timeoutSec A L s) (hc : s.conns a = some c) :
    ∃ s', s.handleControlTimeout a = some s' ∧
      ShowsLists timeoutSec (A.delete a) (erased L c.wheelNode) s' := by
  obtain ⟨hm,hlt⟩ := hA.wired.owned a c hc
  obtain ⟨d,slots,nodes,hd,-,hclose,hw⟩ := closeControlConnection_spec hA.wired hm
  obtain rfl : c = d := Option.some.inj (hc.symm.trans hd)
  refine ⟨_,?_,shows_deleted hA hc hw (fun b hb => update_of_ne hb _ _) (fun d hd => ?_) rfl rfl⟩
  · simp [Control.handleControlTimeout,hc,hclose]
  · have hgone : (s.dropped a c.fd slots nodes).conns a = none := update_self _ _ _
    rw [hgone] at hd
    cases hd

theorem shows_connect (hA : ShowsLists timeoutSec A L s) {fd : ℕ} (hfd : fd < maxControlFd)
    (hmap : s.connMap fd = none) (ha : s.conns a = none) :
    ShowsLists timeoutSec A L (s.newConn a fd) := by
  refine ⟨wired_newConn hA.wired hfd ha hmap,hA.slots,fun b d q hd hn => ?_,hA.tick,hA.timeout⟩
  by_cases hb : b = a
  · subst hb
    have hself : (s.newConn b fd).conns b = some (controlConnInit fd) := update_self _ _ _
    obtain rfl := Option.some.inj (hself.symm.trans hd)
    cases hn
  · have hother : (s.newConn a fd).conns b = s.conns b := update_of_ne hb _ _
    exact hA.due b d q (hother.symm.trans hd) hn

theorem shows_add (hA : ShowsLists timeoutSec A L s) (hc : s.conns a = some c) (hn : c.wheelNode = none)
    {calloc : Option ℕ} (hfresh : ∀ p, calloc = some p → s.nodes p = none) :
    ∃ L' s', s.timeWheelAdd a calloc = some s' ∧
      ShowsLists timeoutSec (if calloc.isSome then A.link timeoutSec a else A) L' s' := by
  cases calloc with
  | none => exact ⟨L,s,timeWheelAdd_null hc hn,hA⟩
  | some p =>
    obtain ⟨slots,nodes,hadd,hw⟩ := timeWheelAdd_spec hA.wired hc hn (hfresh p rfl)
    have hsame : ∀ k < timeWheelSlotCount, A.slots k = (A.slots k).erase a := by
      intro k hk
      rw [hA.slots k hk,connsOf_erased hA.wired hc hk,hn]
      rfl
    have hlists : pushed (erased L c.wheelNode) s.dueSlot p = pushed L s.dueSlot p := by
      rw [hn]
      rfl
    exact ⟨_,_,hadd,shows_linked A hA hc (hlists ▸ hw) hsame rfl rfl⟩

theorem shows_refresh (hA : ShowsLists timeoutSec A L s) (hc : s.conns a = some c) {calloc : Option ℕ}
    (hfresh : ∀ p, calloc = some p → s.nodes p = none) :
    ∃ L' s', s.timeWheelRefresh a calloc = some s' ∧
      ShowsLists timeoutSec (listStep timeoutSec A (.refresh a calloc)) L' s' := by
  have hlinked := linked_iff hA hc
  cases hn : c.wheelNode with
  | none =>
    rw [timeWheelRefresh_null hc hn]
    have hout : ¬A.Linked a := by
      rw [hlinked,hn]
      decide
    cases calloc with
    | none =>
      refine ⟨L,s,timeWheelAdd_null hc hn,?_⟩
      rw [listStep,if_neg (by simp [hout])]
      exact hA
    | some p =>
      obtain ⟨slots,nodes,hadd,hw⟩ := timeWheelAdd_spec hA.wired hc hn (hfresh p rfl)
      have hlists : pushed (erased L c.wheelNode) s.dueSlot p = pushed L s.dueSlot p := by
        rw [hn]
        rfl
      rw [listStep,if_pos (.inr rfl)]
      exact ⟨_,_,hadd,shows_linked (A.delete a) hA hc (hlists ▸ hw) (fun _ _ => rfl) rfl rfl⟩
  | some p =>
    obtain ⟨slots,nodes,hrefresh,hw⟩ := timeWheelRefresh_spec hA.wired hc hn calloc
    rw [listStep,if_pos (.inl (hlinked.mpr (by rw [hn]; rfl)))]
    exact ⟨_,_,hrefresh,shows_linked (A.delete a) hA hc hw (fun _ _ => rfl) rfl rfl⟩

theorem connsOf_filter (hA : ShowsLists timeoutSec A L s) (t : ℕ) {k : ℕ} (hk : k < timeWheelSlotCount) :
    (connsOf s (L k)).filter (fun a => t < A.due a) = connsOf s ((L k).filter (s.stays t)) := by
  refine filterMap_filter_of fun q hq => ?_
  obtain ⟨a,c,hc,hn,-,hv⟩ := wired_node_owner hA.wired hk hq
  refine ⟨a,hv,?_⟩
  rw [← hA.due a c q hc hn,Bool.eq_iff_iff,stays_iff hA.wired t hc hn,decide_eq_true_eq]

theorem mem_stays {stays : ℕ → Bool} {j k q : ℕ} (h : q ∈ update L j ((L j).filter stays) k) :
    q ∈ L k := by
  by_cases hkj : k = j
  · subst hkj
    rw [update_self] at h
    exact List.mem_of_mem_filter h
  · rwa [update_of_ne hkj] at h

theorem stays_open (hw : Wired L s) {t j k q : ℕ} (hj : j < timeWheelSlotCount)
    (hk : k < timeWheelSlotCount) (hq : q ∈ update L j ((L j).filter (s.stays t)) k)
    {a : ℕ} {c : ControlConn} (hc : s.conns a = some c) (hn : c.wheelNode = some q) :
    ¬∃ b d r, s.conns b = some d ∧ d.fd = c.fd ∧ d.wheelNode = some r ∧ r ∈ L j ∧ d.expireTick ≤ t := by
  rintro ⟨b,d,r,hd,hfd,hr,hin,hle⟩
  have hmap := (hw.owned b d hd).1
  rw [hfd,(hw.owned a c hc).1] at hmap
  obtain rfl : a = b := Option.some.inj hmap
  obtain rfl : c = d := Option.some.inj (hc.symm.trans hd)
  obtain rfl : q = r := Option.some.inj (hn.symm.trans hr)
  by_cases hkj : k = j
  · subst hkj
    rw [update_self] at hq
    have hstays := (stays_iff hw t hc hn).mp (List.mem_filter.mp hq).2
    omega
  · rw [update_of_ne hkj] at hq
    exact hkj (hw.table.apart k hk j hj q hq hin)

theorem shows_tick (hA : ShowsLists timeoutSec A L s) :
    ∃ s', s.timeWheelTick = some s' ∧
      Control.tickWalk maxControlFd
          (s.wheel.slots ((s.wheel.currentTick+1) % timeWheelSlotCount))
          { s with wheel := { s.wheel with currentTick := s.wheel.currentTick+1 } } =
        some (L ((s.wheel.currentTick+1) % timeWheelSlotCount),s') ∧
      ∃ L', ShowsLists timeoutSec A.advance L' s' := by
  obtain ⟨fds,s',hrun,hwalk,hw,hclear,-,htick,hfds⟩ := timeWheelTick_walk hA.wired
  refine ⟨s',hrun,hwalk,_,hw,fun k hk => ?_,fun a c p hc hn => ?_,?_,hclear.timeout.trans hA.timeout⟩
  · have hj : (s.wheel.currentTick+1) % timeWheelSlotCount < timeWheelSlotCount :=
      Nat.mod_lt _ (by decide)
    have hopen : ∀ q ∈ update L ((s.wheel.currentTick+1) % timeWheelSlotCount)
        ((L ((s.wheel.currentTick+1) % timeWheelSlotCount)).filter
          (s.stays (s.wheel.currentTick+1))) k, ∀ a c, s.conns a = some c → c.wheelNode = some q →
        ∃ c', s'.conns a = some c' ∧ c'.wheelNode = some q := by
      intro q hq a c hc hn
      have hnot := stays_open hA.wired hj hk hq hc hn
      exact ⟨c,(hclear.conns a c).mpr ⟨hc,fun hin => hnot ((hfds c.fd).mp hin)⟩,hn⟩
    rw [connsOf_congr fun q hq => val_kept hA.wired hw hk (mem_stays hq) (hopen q hq)]
    unfold WheelLists.advance
    dsimp only
    rw [← hA.tick]
    by_cases hkj : k = (s.wheel.currentTick+1) % timeWheelSlotCount
    · subst hkj
      rw [update_self,update_self,hA.slots _ hk,connsOf_filter hA _ hk]
    · rw [update_of_ne hkj,update_of_ne hkj,hA.slots k hk]
  · exact hA.due a c p ((hclear.conns a c).mp hc).1 hn
  · rw [htick,hA.tick]
    rfl

end Steps

section Runs

variable {timeoutSec : ℕ} {A : WheelLists} {L : ℕ → List ℕ} {s : Control} {e : WheelEvent}

theorem shows_init (timeoutSec : ℕ) :
    ShowsLists timeoutSec WheelLists.init (fun _ => []) (controlInit timeoutSec) where
  wired := wired_init timeoutSec _
  slots _ _ := rfl
  due _ _ _ hc := nomatch hc
  tick := rfl
  timeout := rfl

/-- The wheel in memory does what the lists do. -/
theorem shows_step (hA : ShowsLists timeoutSec A L s) (hok : WheelPermitted s e) :
    ∃ L' s', wheelStep s e = some s' ∧ ShowsLists timeoutSec (listStep timeoutSec A e) L' s' := by
  cases e with
  | connect fd a =>
    obtain ⟨hfd,hmap,ha⟩ := hok
    exact ⟨L,_,rfl,shows_connect hA hfd hmap ha⟩
  | add a calloc =>
    obtain ⟨⟨c,hc,hn⟩,hfresh⟩ := hok
    exact shows_add hA hc hn hfresh
  | refresh a calloc =>
    obtain ⟨⟨c,hc⟩,hfresh⟩ := hok
    exact shows_refresh hA hc hfresh
  | remove a =>
    obtain ⟨c,hc⟩ := hok
    obtain ⟨s',hremove,hA'⟩ := shows_remove hA hc
    exact ⟨_,s',hremove,hA'⟩
  | close a =>
    obtain ⟨c,hc⟩ := hok
    obtain ⟨s',hclose,hA'⟩ := shows_close hA hc
    exact ⟨_,s',hclose,hA'⟩
  | tick =>
    obtain ⟨s',htick,-,L',hA'⟩ := shows_tick hA
    exact ⟨L',s',htick,hA'⟩

/-- The wheel in memory and the lists, side by side. -/
def wheelPair (timeoutSec : ℕ) (P : Control × WheelLists) (e : WheelEvent) :
    Option (Control × WheelLists) :=
  (wheelStep P.1 e).map fun s => (s,listStep timeoutSec P.2 e)

/-- In every run the slots hold doubly linked lists, which are those of the model without
memory; whatever comes next finds all memory it asks for allocated, and a tick visits
each node of its slot once. -/
theorem wheel_is_lists (timeoutSec : ℕ) (P : Control × WheelLists)
    (run : Runs.Reached (wheelPair timeoutSec) (fun P e => WheelPermitted P.1 e)
      (controlInit timeoutSec,WheelLists.init) P) :
    ∃ L, ShowsLists timeoutSec P.2 L P.1 ∧
      (∀ e, WheelPermitted P.1 e →
        ∃ L' s', wheelStep P.1 e = some s' ∧ ShowsLists timeoutSec (listStep timeoutSec P.2 e) L' s') ∧
      ∃ s', P.1.timeWheelTick = some s' ∧
        Control.tickWalk maxControlFd
            (P.1.wheel.slots ((P.1.wheel.currentTick+1) % timeWheelSlotCount))
            { P.1 with wheel := { P.1.wheel with currentTick := P.1.wheel.currentTick+1 } } =
          some (L ((P.1.wheel.currentTick+1) % timeWheelSlotCount),s') := by
  have hshows : ∃ L, ShowsLists timeoutSec P.2 L P.1 := by
    refine Runs.reached_invariant (I := fun P => ∃ L, ShowsLists timeoutSec P.2 L P.1)
      ⟨_,shows_init timeoutSec⟩ ?_ run
    rintro Q e Q' ⟨L,hA⟩ hok hstep
    obtain ⟨L',s',hs',hA'⟩ := shows_step hA hok
    unfold wheelPair at hstep
    rw [hs'] at hstep
    cases hstep
    exact ⟨L',hA'⟩
  obtain ⟨L,hA⟩ := hshows
  obtain ⟨s',htick,hwalk,-⟩ := shows_tick hA
  exact ⟨L,hA,fun e hok => shows_step hA hok,s',htick,hwalk⟩

end Runs

theorem wheel_next {timeoutSec : ℕ} {P₀ : Control × WheelLists} {s s' : Control} {A : WheelLists}
    (e : WheelEvent) (hok : WheelPermitted s e) (hstep : wheelStep s e = some s')
    (run : Runs.Reached (wheelPair timeoutSec) (fun P e => WheelPermitted P.1 e) P₀ (s,A)) :
    Runs.Reached (wheelPair timeoutSec) (fun P e => WheelPermitted P.1 e) P₀
      (s',listStep timeoutSec A e) :=
  .next (e := e) run hok (by rw [wheelPair,hstep]; rfl)

/-- Two connections, the first of which is refreshed behind the second. -/
theorem refreshed_to_front : ∃ (P : Control × WheelLists) (L : ℕ → List ℕ),
    ShowsLists 30 P.2 L P.1 ∧ P.2.slots 30 = [1,2] := by
  have hstart : Runs.Reached (wheelPair 30) (fun P e => WheelPermitted P.1 e)
      (controlInit 30,WheelLists.init) (controlInit 30,WheelLists.init) := .start
  have hone := wheel_next (.connect 5 1) ⟨by decide,rfl,rfl⟩ rfl hstart
  have hadded := wheel_next (.add 1 (some 7)) ⟨⟨_,rfl,rfl⟩,fun p hp => by cases hp; rfl⟩ rfl hone
  have htwo := wheel_next (.connect 6 2) ⟨by decide,rfl,rfl⟩ rfl hadded
  have hboth := wheel_next (.add 2 (some 8)) ⟨⟨_,rfl,rfl⟩,fun p hp => by cases hp; rfl⟩ rfl htwo
  have hrun := wheel_next (.refresh 1 none) ⟨⟨_,rfl⟩,fun _ h => by cases h⟩ rfl hboth
  obtain ⟨L,hL,-⟩ := wheel_is_lists 30 _ hrun
  exact ⟨_,L,hL,by decide⟩

end WindCloud
