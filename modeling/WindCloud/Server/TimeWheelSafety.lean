import Mathlib.Data.Finset.Card
import WindCloud.Server.TimeWheel

/-!
# The wheel, the map and the connections stay wired together

`Wired L s` ties the lists `L` of the slots to the connections in memory and to
`conn_map`. Each function of the time wheel is a write of whole slots and of one
connection which keeps `Wired`; none of them touches memory which is not
allocated.
-/

set_option autoImplicit false

namespace WindCloud
open Function Links

section Kernel

theorem closed_files (fds : List ℕ) (k : Kernel) (fd : ℕ) :
    (fds.foldl Kernel.close k).files fd = none ↔ fd ∈ fds ∨ k.files fd = none := by
  induction fds generalizing k with
  | nil => simp
  | cons f fds ih =>
    rw [List.foldl_cons,ih,List.mem_cons]
    by_cases hf : fd = f
    · subst hf
      simp [Kernel.close]
    · simp [Kernel.close,hf]

theorem kept_files (fds : List ℕ) (k : Kernel) {fd : ℕ} (h : fd ∉ fds) :
    (fds.foldl Kernel.close k).files fd = k.files fd := by
  induction fds generalizing k with
  | nil => rfl
  | cons f fds ih =>
    obtain ⟨hf,hfds⟩ : fd ≠ f ∧ fd ∉ fds := by simpa using h
    rw [List.foldl_cons,ih _ hfds]
    simp [Kernel.close,hf]

end Kernel

structure Wired (L : ℕ → List ℕ) (s : Control) : Prop where
  table : Table s.wheel.slots s.nodes timeWheelSlotCount L
  node : ∀ k < timeWheelSlotCount, ∀ p ∈ L k,
    ∃ a c, s.conns a = some c ∧ c.wheelNode = some p ∧ c.wheelSlot = k
  conn : ∀ a c p, s.conns a = some c → c.wheelNode = some p → ∃ k < timeWheelSlotCount,
    c.wheelSlot = k ∧ c.expireTick % timeWheelSlotCount = k ∧ p ∈ L k ∧
      (s.nodes p).map Cell.val = some a
  mapped : ∀ fd a, s.connMap fd = some a → ∃ c, s.conns a = some c ∧ c.fd = fd
  owned : ∀ a c, s.conns a = some c → s.connMap c.fd = some a ∧ c.fd < maxControlFd

/-- No node is due before `t`. -/
def NotDue (t : ℕ) (s : Control) : Prop :=
  ∀ a c p, s.conns a = some c → c.wheelNode = some p → t ≤ c.expireTick

variable {L : ℕ → List ℕ} {s s' : Control} {a p : ℕ} {c : ControlConn}

theorem wired_init (timeoutSec : ℕ) (k : Kernel) :
    Wired (fun _ => []) ⟨timeWheelInit timeoutSec,fun _ => none,fun _ => none,fun _ => none,k⟩ where
  table := ⟨fun _ _ => rfl,fun _ _ => trivial,fun _ _ => List.nodup_nil,
    fun _ _ _ _ _ hp => absurd hp (List.not_mem_nil)⟩
  node _ _ _ hp := absurd hp (List.not_mem_nil)
  conn _ _ _ hc := nomatch hc
  mapped _ _ ha := nomatch ha
  owned _ _ hc := nomatch hc

theorem wired_node_owner (hw : Wired L s) {k : ℕ} (hk : k < timeWheelSlotCount) (hp : p ∈ L k) :
    ∃ a c, s.conns a = some c ∧ c.wheelNode = some p ∧ c.wheelSlot = k ∧
      (s.nodes p).map Cell.val = some a := by
  obtain ⟨a,c,hc,hn,hs⟩ := hw.node k hk p hp
  obtain ⟨_,_,_,_,_,hval⟩ := hw.conn a c p hc hn
  exact ⟨a,c,hc,hn,hs,hval⟩

theorem wired_kernel (hw : Wired L s) (k : Kernel) : Wired L { s with kernel := k } :=
  ⟨hw.table,hw.node,hw.conn,hw.mapped,hw.owned⟩

theorem wired_ctx (hw : Wired L s) (hc : s.conns a = some c) (ctx : ClientContext) :
    Wired L (s.setConn a { c with ctx := ctx }) := by
  have hcase : ∀ b d, (s.setConn a { c with ctx := ctx }).conns b = some d →
      ∃ d₀, s.conns b = some d₀ ∧ d₀.fd = d.fd ∧ d₀.expireTick = d.expireTick ∧
        d₀.wheelSlot = d.wheelSlot ∧ d₀.wheelNode = d.wheelNode := by
    intro b d hd
    by_cases hb : b = a
    · subst hb
      obtain rfl : { c with ctx := ctx } = d := by simpa [Control.setConn] using hd
      exact ⟨c,hc,rfl,rfl,rfl,rfl⟩
    · exact ⟨d,by simpa [Control.setConn,hb] using hd,rfl,rfl,rfl,rfl⟩
  have hback : ∀ b d, s.conns b = some d → ∃ d', (s.setConn a { c with ctx := ctx }).conns b = some d' ∧
      d'.fd = d.fd ∧ d'.wheelNode = d.wheelNode ∧ d'.wheelSlot = d.wheelSlot := by
    intro b d hd
    by_cases hb : b = a
    · subst hb
      obtain rfl : c = d := Option.some.inj (hc.symm.trans hd)
      exact ⟨_,update_self _ _ _,rfl,rfl,rfl⟩
    · exact ⟨d,by simpa [Control.setConn,hb] using hd,rfl,rfl,rfl⟩
  refine ⟨hw.table,?_,?_,?_,?_⟩
  · intro k hk p hp
    obtain ⟨b,d,hd,hn,hs⟩ := hw.node k hk p hp
    obtain ⟨d',hd',_,hn',hs'⟩ := hback b d hd
    exact ⟨b,d',hd',hn'.trans hn,hs'.trans hs⟩
  · intro b d p hd hn
    obtain ⟨d₀,hd₀,_,he,hs,hn₀⟩ := hcase b d hd
    obtain ⟨k,hk,hks,hke,hp,hv⟩ := hw.conn b d₀ p hd₀ (hn₀.trans hn)
    exact ⟨k,hk,hs.symm.trans hks,by rw [← he,hke],hp,hv⟩
  · intro fd b hb
    obtain ⟨d,hd,hfd⟩ := hw.mapped fd b hb
    obtain ⟨d',hd',hfd',_⟩ := hback b d hd
    exact ⟨d',hd',hfd'.trans hfd⟩
  · intro b d hd
    obtain ⟨d₀,hd₀,hfd,_⟩ := hcase b d hd
    rw [← hfd]
    exact hw.owned b d₀ hd₀

theorem wired_newConn (hw : Wired L s) {fd : ℕ} (hfd : fd < maxControlFd)
    (ha : s.conns a = none) (hmap : s.connMap fd = none) : Wired L (s.newConn a fd) := by
  have hne : ∀ b d, s.conns b = some d → b ≠ a := by
    rintro b d hd rfl
    rw [ha] at hd
    cases hd
  have hnew : ∀ b d, (s.newConn a fd).conns b = some d →
      (b = a ∧ d = controlConnInit fd) ∨ (b ≠ a ∧ s.conns b = some d) := by
    intro b d hd
    by_cases hb : b = a
    · subst hb
      exact .inl ⟨rfl,by simpa [Control.newConn,eq_comm] using hd⟩
    · exact .inr ⟨hb,by simpa [Control.newConn,hb] using hd⟩
  refine ⟨hw.table,?_,?_,?_,?_⟩
  · intro k hk p hp
    obtain ⟨b,d,hd,hn,hs⟩ := hw.node k hk p hp
    exact ⟨b,d,by simpa [Control.newConn,hne b d hd] using hd,hn,hs⟩
  · intro b d p hd hn
    rcases hnew b d hd with ⟨_,rfl⟩ | ⟨_,hd⟩
    · cases hn
    · exact hw.conn b d p hd hn
  · intro f b hb
    by_cases hf : f = fd
    · subst hf
      obtain rfl : a = b := by simpa [Control.newConn] using hb
      exact ⟨controlConnInit f,by simp [Control.newConn],rfl⟩
    · obtain ⟨d,hd,hdf⟩ := hw.mapped f b (by simpa [Control.newConn,hf] using hb)
      exact ⟨d,by simpa [Control.newConn,hne b d hd] using hd,hdf⟩
  · intro b d hd
    rcases hnew b d hd with ⟨rfl,rfl⟩ | ⟨hb,hd⟩
    · exact ⟨by simp [Control.newConn,controlConnInit],hfd⟩
    · obtain ⟨hm,hlt⟩ := hw.owned b d hd
      have hf : d.fd ≠ fd := by
        intro he
        rw [he,hmap] at hm
        cases hm
      exact ⟨by simpa [Control.newConn,hf] using hm,hlt⟩

theorem detachNode_spec (hw : Wired L s) (hc : s.conns a = some c) {ps qs : List ℕ} {k : ℕ}
    (hk : k < timeWheelSlotCount) (hslot : c.wheelSlot = k) (hn : c.wheelNode = some p)
    (hL : L k = ps++p::qs) :
    ∃ slots nodes, s.detachNode a =
        some { s with wheel := { s.wheel with slots := slots }, nodes := nodes } ∧
      Table slots nodes timeWheelSlotCount (update L k (ps++qs)) ∧
      ∀ q, (nodes q).map Cell.val = (s.nodes q).map Cell.val := by
  obtain ⟨d,nodes,hun,_,_,_,htable,hval⟩ := table_unlink hw.table hk hL
  refine ⟨_,nodes,?_,htable,hval⟩
  have hset : s.wheel.setSlot c.wheelSlot d.next =
      some { s.wheel with slots := update s.wheel.slots k d.next } := by
    unfold TimeWheel.setSlot
    rw [hslot,if_pos ⟨by omega,by omega⟩,Int.toNat_natCast]
  cases hd : d.prev with
  | none => simp [Control.detachNode,hc,hn,hun,hd,hset]
  | some q => simp [Control.detachNode,hc,hn,hun,hd]

/-- The slot for what is due a whole timeout from now. -/
def Control.dueSlot (s : Control) : ℕ :=
  (s.wheel.currentTick+s.wheel.timeoutSec) % timeWheelSlotCount

/-- `p` goes to the front of the list `k`. -/
def pushed (L : ℕ → List ℕ) (k p : ℕ) : ℕ → List ℕ := update L k (p::L k)

def erased (L : ℕ → List ℕ) (node : Option ℕ) : ℕ → List ℕ :=
  node.elim L fun p k => (L k).erase p

/-- A connection at node `p`, due a whole timeout from now. -/
def Control.renewed (s : Control) (c : ControlConn) (p : ℕ) : ControlConn :=
  { c with
    expireTick := s.wheel.currentTick+s.wheel.timeoutSec
    wheelSlot := ((s.wheel.currentTick+s.wheel.timeoutSec) % timeWheelSlotCount : ℕ)
    wheelNode := some p }

def Control.placed (s : Control) (a : ℕ) (c : ControlConn) (p : ℕ) (slots : ℕ → Option ℕ)
    (nodes : Heap ℕ) : Control :=
  { s with
    wheel := { s.wheel with slots := slots }
    nodes := nodes
    conns := update s.conns a (some (s.renewed c p)) }

@[simp] theorem placed_self (slots : ℕ → Option ℕ) (nodes : Heap ℕ) :
    (s.placed a c p slots nodes).conns a = some (s.renewed c p) := update_self _ _ _

theorem placed_other (slots : ℕ → Option ℕ) (nodes : Heap ℕ) {b : ℕ} (hb : b ≠ a) :
    (s.placed a c p slots nodes).conns b = s.conns b := update_of_ne hb _ _

theorem dueSlot_lt (s : Control) : s.dueSlot < timeWheelSlotCount := Nat.mod_lt _ (by decide)

theorem wired_placed {L' : ℕ → List ℕ} {slots : ℕ → Option ℕ} {nodes : Heap ℕ} (hw : Wired L s)
    (hc : s.conns a = some c) (ht : Table slots nodes timeWheelSlotCount L')
    (hL : ∀ k < timeWheelSlotCount, ∀ q, q ∈ L' k ↔
      (q = p ∧ k = s.dueSlot) ∨ (q ∈ L k ∧ c.wheelNode ≠ some q))
    (hfree : ∀ b d, s.conns b = some d → d.wheelNode = some p → b = a)
    (hval : ∀ q, q ≠ p → (nodes q).map Cell.val = (s.nodes q).map Cell.val)
    (hp : (nodes p).map Cell.val = some a) : Wired L' (s.placed a c p slots nodes) := by
  have hmod : s.dueSlot < timeWheelSlotCount := dueSlot_lt s
  have hown : ∀ k < timeWheelSlotCount, ∀ q ∈ L k, c.wheelNode ≠ some q →
      ∃ b d, b ≠ a ∧ s.conns b = some d ∧ d.wheelNode = some q ∧ d.wheelSlot = k := by
    intro k hk q hq hne
    obtain ⟨b,d,hd,hn,hs⟩ := hw.node k hk q hq
    refine ⟨b,d,?_,hd,hn,hs⟩
    rintro rfl
    rw [hc] at hd
    exact hne (Option.some.inj hd ▸ hn)
  refine ⟨ht,?_,?_,?_,?_⟩
  · intro k hk q hq
    rcases (hL k hk q).mp hq with ⟨rfl,rfl⟩ | ⟨hq,hne⟩
    · exact ⟨a,_,placed_self _ _,rfl,rfl⟩
    · obtain ⟨b,d,hb,hd,hn,hs⟩ := hown k hk q hq hne
      exact ⟨b,d,by rw [placed_other _ _ hb,hd],hn,hs⟩
  · intro b d q hd hn
    by_cases hb : b = a
    · subst hb
      obtain rfl : s.renewed c p = d := by simpa using hd
      obtain rfl : p = q := Option.some.inj hn
      exact ⟨_,hmod,rfl,rfl,(hL _ hmod p).mpr (.inl ⟨rfl,rfl⟩),hp⟩
    · have hd' : s.conns b = some d := by rwa [placed_other _ _ hb] at hd
      obtain ⟨k,hk,hks,hke,hq,hv⟩ := hw.conn b d q hd' hn
      have hqp : q ≠ p := fun he => hb (hfree b d hd' (he ▸ hn))
      have hne : c.wheelNode ≠ some q := by
        intro he
        obtain ⟨_,_,_,_,_,hv'⟩ := hw.conn a c q hc he
        exact hb (Option.some.inj (hv.symm.trans hv'))
      exact ⟨k,hk,hks,hke,(hL k hk q).mpr (.inr ⟨hq,hne⟩),(hval q hqp).trans hv⟩
  · intro fd b hb
    obtain ⟨d,hd,hfd⟩ := hw.mapped fd b hb
    by_cases hba : b = a
    · subst hba
      obtain rfl : c = d := Option.some.inj (hc.symm.trans hd)
      exact ⟨_,placed_self _ _,hfd⟩
    · exact ⟨d,by rw [placed_other _ _ hba,hd],hfd⟩
  · intro b d hd
    by_cases hb : b = a
    · subst hb
      obtain rfl : s.renewed c p = d := by simpa using hd
      exact hw.owned b c hc
    · rw [placed_other _ _ hb] at hd
      exact hw.owned b d hd

/-- Connection `a` is gone, with its entry in the map and its descriptor. -/
def Control.dropped (s : Control) (a fd : ℕ) (slots : ℕ → Option ℕ) (nodes : Heap ℕ) : Control :=
  { s with
    wheel := { s.wheel with slots := slots }
    nodes := nodes
    conns := update s.conns a none
    connMap := update s.connMap fd none
    kernel := s.kernel.close fd }

theorem wired_dropped {L' : ℕ → List ℕ} {slots : ℕ → Option ℕ} {nodes : Heap ℕ} (hw : Wired L s)
    (hc : s.conns a = some c) (ht : Table slots nodes timeWheelSlotCount L')
    (hL : ∀ k < timeWheelSlotCount, ∀ q, q ∈ L' k ↔ q ∈ L k ∧ c.wheelNode ≠ some q)
    (hval : ∀ q, c.wheelNode ≠ some q → (nodes q).map Cell.val = (s.nodes q).map Cell.val) :
    Wired L' (s.dropped a c.fd slots nodes) := by
  refine ⟨ht,?_,?_,?_,?_⟩
  · intro k hk q hq
    obtain ⟨hq,hne⟩ := (hL k hk q).mp hq
    obtain ⟨b,d,hd,hn,hs⟩ := hw.node k hk q hq
    have hb : b ≠ a := by
      rintro rfl
      rw [hc] at hd
      exact hne (Option.some.inj hd ▸ hn)
    exact ⟨b,d,by simpa [Control.dropped,hb] using hd,hn,hs⟩
  · intro b d q hd hn
    by_cases hb : b = a
    · subst hb
      simp [Control.dropped] at hd
    · have hd' : s.conns b = some d := by simpa [Control.dropped,hb] using hd
      obtain ⟨k,hk,hks,hke,hq,hv⟩ := hw.conn b d q hd' hn
      have hne : c.wheelNode ≠ some q := by
        intro he
        obtain ⟨_,_,_,_,_,hv'⟩ := hw.conn a c q hc he
        exact hb (Option.some.inj (hv.symm.trans hv'))
      exact ⟨k,hk,hks,hke,(hL k hk q).mpr ⟨hq,hne⟩,(hval q hne).trans hv⟩
  · intro fd b hb
    by_cases hfd : fd = c.fd
    · subst hfd
      simp [Control.dropped] at hb
    · obtain ⟨d,hd,hdf⟩ := hw.mapped fd b (by simpa [Control.dropped,hfd] using hb)
      have hba : b ≠ a := by
        rintro rfl
        rw [hc] at hd
        exact hfd (by rw [← hdf,Option.some.inj hd])
      exact ⟨d,by simpa [Control.dropped,hba] using hd,hdf⟩
  · intro b d hd
    by_cases hb : b = a
    · subst hb
      simp [Control.dropped] at hd
    · obtain ⟨hm,hlt⟩ := hw.owned b d (by simpa [Control.dropped,hb] using hd)
      have hfd : d.fd ≠ c.fd := by
        intro he
        rw [he,(hw.owned a c hc).1] at hm
        exact hb (Option.some.inj hm).symm
      exact ⟨by simpa [Control.dropped,hfd] using hm,hlt⟩

section Operations

theorem placeNode_spec (ht : Table s.wheel.slots s.nodes timeWheelSlotCount L) {n : Cell ℕ}
    (hn : s.nodes p = some n) (hp : ∀ k < timeWheelSlotCount, p ∉ L k) (a : ℕ) (c : ControlConn) :
    ∃ slots nodes, s.placeNode a c p = some (s.placed a c p slots nodes) ∧
      Table slots nodes timeWheelSlotCount (pushed L s.dueSlot p) ∧
      ∀ q, (nodes q).map Cell.val = (s.nodes q).map Cell.val := by
  have hmod : s.dueSlot < timeWheelSlotCount := dueSlot_lt s
  obtain ⟨nodes,hpush,htable,hval⟩ := table_push ht hmod hn hp
  unfold Control.dueSlot at hmod hpush
  refine ⟨_,nodes,?_,htable,hval⟩
  have hset := TimeWheel.setSlot.eq_1 s.wheel
    (((s.wheel.currentTick+s.wheel.timeoutSec) % timeWheelSlotCount : ℕ) : ℤ) (some p)
  rw [if_pos ⟨by omega,by omega⟩,Int.toNat_natCast] at hset
  simp only [Control.placeNode,hpush,hset,Option.bind_eq_bind,Option.bind_some]
  rfl

theorem mem_pushed {k j q : ℕ} :
    q ∈ pushed L j p k ↔ (q = p ∧ k = j) ∨ q ∈ L k := by
  unfold pushed
  by_cases hk : k = j
  · subst hk
    simp
  · simp [hk]

theorem mem_removed (ht : Table s.wheel.slots s.nodes timeWheelSlotCount L) {j k q : ℕ}
    (hj : j < timeWheelSlotCount) (hk : k < timeWheelSlotCount) {ps qs : List ℕ}
    (hL : L j = ps++p::qs) : q ∈ update L j (ps++qs) k ↔ q ∈ L k ∧ q ≠ p := by
  have hpj : p ∈ L j := by simp [hL]
  by_cases hkj : k = j
  · subst hkj
    have hnd := ht.nodup k hk
    rw [hL] at hnd
    obtain ⟨_,hnd,hdis⟩ := List.nodup_append.mp hnd
    have hps : p ∉ ps := fun h => hdis p h p (by simp) rfl
    have hqs : p ∉ qs := (List.nodup_cons.mp hnd).1
    rw [update_self,hL,List.mem_append,List.mem_append,List.mem_cons]
    constructor
    · rintro (h | h)
      · exact ⟨.inl h,fun he => hps (he ▸ h)⟩
      · exact ⟨.inr (.inr h),fun he => hqs (he ▸ h)⟩
    · rintro ⟨h | h | h,hne⟩
      · exact .inl h
      · exact absurd h hne
      · exact .inr h
  · rw [update_of_ne hkj]
    constructor
    · intro hq
      refine ⟨hq,?_⟩
      rintro rfl
      exact hkj (ht.apart k hk j hj q hq hpj)
    · exact fun h => h.1

theorem wired_fresh (hw : Wired L s) (hp : s.nodes p = none) :
    (∀ k < timeWheelSlotCount, p ∉ L k) ∧
      ∀ b d, s.conns b = some d → d.wheelNode ≠ some p := by
  constructor
  · intro k hk hin
    obtain ⟨n,hn⟩ := table_cell hw.table hk hin
    rw [hp] at hn
    cases hn
  · intro b d hd he
    obtain ⟨_,_,_,_,_,hv⟩ := hw.conn b d p hd he
    rw [hp] at hv
    cases hv

theorem timeWheelAdd_spec (hw : Wired L s) (hc : s.conns a = some c) (hn : c.wheelNode = none)
    (hp : s.nodes p = none) :
    ∃ slots nodes, s.timeWheelAdd a (some p) = some (s.placed a c p slots nodes) ∧
      Wired (pushed L s.dueSlot p) (s.placed a c p slots nodes) := by
  obtain ⟨hlists,howner⟩ := wired_fresh hw hp
  have ht : Table (s.newNode p a).wheel.slots (s.newNode p a).nodes timeWheelSlotCount L :=
    table_update hw.table hlists
  obtain ⟨slots,nodes,hplace,htable,hval⟩ :=
    placeNode_spec ht (update_self _ _ _) hlists a c
  have hadd : s.timeWheelAdd a (some p) = (s.newNode p a).placeNode a c p := by
    simp [Control.timeWheelAdd,hc,hn]
  refine ⟨slots,nodes,hadd.trans hplace,wired_placed hw hc htable ?_ ?_ ?_ ?_⟩
  · intro k _ q
    rw [mem_pushed]
    simp [hn]
  · exact fun b d hd he => absurd he (howner b d hd)
  · intro q hq
    rw [hval]
    simp [Control.newNode,hq]
  · rw [hval]
    simp [Control.newNode]

theorem timeWheelAdd_null (hc : s.conns a = some c) (hn : c.wheelNode = none) :
    s.timeWheelAdd a none = some s := by
  simp [Control.timeWheelAdd,hc,hn]

theorem timeWheelRefresh_null (hc : s.conns a = some c) (hn : c.wheelNode = none)
    (calloc : Option ℕ) : s.timeWheelRefresh a calloc = s.timeWheelAdd a calloc := by
  simp [Control.timeWheelRefresh,hc,hn]

theorem wired_split (hw : Wired L s) (hc : s.conns a = some c) (hn : c.wheelNode = some p) :
    ∃ k ps qs, k < timeWheelSlotCount ∧ c.wheelSlot = k ∧ L k = ps++p::qs := by
  obtain ⟨k,hk,hs,_,hp,_⟩ := hw.conn a c p hc hn
  obtain ⟨ps,qs,hL⟩ := List.append_of_mem hp
  exact ⟨k,ps,qs,hk,hs,hL⟩

theorem erased_split (ht : Table s.wheel.slots s.nodes timeWheelSlotCount L) {k : ℕ}
    (hk : k < timeWheelSlotCount) {ps qs : List ℕ} (hL : L k = ps++p::qs) :
    ∀ j < timeWheelSlotCount, erased L (some p) j = update L k (ps++qs) j := by
  intro j hj
  show (L j).erase p = _
  by_cases hjk : j = k
  · subst hjk
    have hnd := ht.nodup j hj
    rw [hL] at hnd
    have hps : p ∉ ps := fun h => (List.nodup_append.mp hnd).2.2 p h p (by simp) rfl
    rw [update_self,hL,List.erase_append_right _ hps,List.erase_cons_head]
  · have hout : p ∉ L j := fun h => hjk (ht.apart j hj k hk p h (by simp [hL]))
    rw [update_of_ne hjk,List.erase_of_not_mem hout]

theorem table_congr {heads : ℕ → Option ℕ} {h : Heap ℕ} {L' : ℕ → List ℕ}
    (ht : Table heads h timeWheelSlotCount L) (he : ∀ k < timeWheelSlotCount, L' k = L k) :
    Table heads h timeWheelSlotCount L' where
  head k hk := by rw [he k hk,ht.head k hk]
  seg k hk := by rw [he k hk]; exact ht.seg k hk
  nodup k hk := by rw [he k hk]; exact ht.nodup k hk
  apart j hj k hk p hp hp' := ht.apart j hj k hk p (he j hj ▸ hp) (he k hk ▸ hp')

theorem mem_erased (ht : Table s.wheel.slots s.nodes timeWheelSlotCount L) {j k q : ℕ}
    (hj : j < timeWheelSlotCount) (hk : k < timeWheelSlotCount) {ps qs : List ℕ}
    (hL : L j = ps++p::qs) : q ∈ erased L (some p) k ↔ q ∈ L k ∧ q ≠ p := by
  rw [erased_split ht hj hL k hk]
  exact mem_removed ht hj hk hL

theorem timeWheelRefresh_spec (hw : Wired L s) (hc : s.conns a = some c)
    (hn : c.wheelNode = some p) (calloc : Option ℕ) :
    ∃ slots nodes, s.timeWheelRefresh a calloc = some (s.placed a c p slots nodes) ∧
      Wired (pushed (erased L c.wheelNode) s.dueSlot p) (s.placed a c p slots nodes) := by
  obtain ⟨k,ps,qs,hk,hs,hL⟩ := wired_split hw hc hn
  obtain ⟨slots₁,nodes₁,hdetach,htable₁,hval₁⟩ := detachNode_spec hw hc hk hs hn hL
  obtain ⟨_,_,_,_,_,hval⟩ := hw.conn a c p hc hn
  have hval' : (nodes₁ p).map Cell.val = some a := (hval₁ p).trans hval
  obtain ⟨n,hnode,_⟩ := Option.map_eq_some_iff.mp hval'
  have hout : ∀ j < timeWheelSlotCount, p ∉ erased L (some p) j :=
    fun j hj hin => ((mem_erased hw.table hk hj hL).mp hin).2 rfl
  obtain ⟨slots,nodes,hplace,htable,hval₂⟩ :=
    placeNode_spec (s := { s with
      wheel := { s.wheel with slots := slots₁ }
      nodes := nodes₁ }) (table_congr htable₁ (erased_split hw.table hk hL)) hnode hout a c
  have hslot : 0 ≤ c.wheelSlot := by omega
  have hrefresh : s.timeWheelRefresh a calloc = Control.placeNode { s with
      wheel := { s.wheel with slots := slots₁ }
      nodes := nodes₁ } a c p := by
    simp [Control.timeWheelRefresh,Control.timeWheelAdd,hc,hn,hslot,hdetach]
  rw [hn]
  refine ⟨slots,nodes,hrefresh.trans hplace,wired_placed hw hc htable ?_ ?_ ?_ ?_⟩
  · intro j hj q
    rw [mem_pushed,mem_erased hw.table hk hj hL,hn]
    simp [eq_comm]
  · intro b d hd he
    obtain ⟨_,_,_,_,_,hv⟩ := hw.conn b d p hd he
    exact Option.some.inj (hv.symm.trans hval)
  · exact fun q _ => (hval₂ q).trans (hval₁ q)
  · exact (hval₂ p).trans hval'

/-- Exactly the connections under `fds` have been closed, one after another. -/
structure Cleared (fds : List ℕ) (s s' : Control) : Prop where
  conns : ∀ a c, s'.conns a = some c ↔ s.conns a = some c ∧ c.fd ∉ fds
  map : ∀ fd a, s'.connMap fd = some a ↔ s.connMap fd = some a ∧ fd ∉ fds
  kernel : s'.kernel = fds.foldl Kernel.close s.kernel
  timeout : s'.wheel.timeoutSec = s.wheel.timeoutSec

theorem cleared_nil (s : Control) : Cleared [] s s :=
  ⟨by simp,by simp,rfl,rfl⟩

theorem cleared_trans {fds fds' : List ℕ} {s₁ s₂ : Control} (h : Cleared fds s s₁)
    (h' : Cleared fds' s₁ s₂) : Cleared (fds++fds') s s₂ where
  conns a c := by rw [h'.conns,h.conns,List.mem_append,not_or,and_assoc]
  map fd a := by rw [h'.map,h.map,List.mem_append,not_or,and_assoc]
  kernel := by rw [h'.kernel,h.kernel,List.foldl_append]
  timeout := h'.timeout.trans h.timeout

theorem cleared_dropped (hw : Wired L s) (hc : s.conns a = some c) (slots : ℕ → Option ℕ)
    (nodes : Heap ℕ) : Cleared [c.fd] s (s.dropped a c.fd slots nodes) := by
  refine ⟨fun b d => ?_,fun fd b => ?_,rfl,rfl⟩
  · by_cases hb : b = a
    · subst hb
      constructor
      · intro hd
        simp [Control.dropped] at hd
      · rintro ⟨hd,hne⟩
        obtain rfl : c = d := Option.some.inj (hc.symm.trans hd)
        exact absurd (List.mem_singleton.mpr rfl) hne
    · have hsame : (s.dropped a c.fd slots nodes).conns b = s.conns b := by
        simp [Control.dropped,hb]
      rw [hsame]
      constructor
      · intro hd
        refine ⟨hd,fun hfd => hb ?_⟩
        have hm := (hw.owned b d hd).1
        rw [List.mem_singleton.mp hfd,(hw.owned a c hc).1] at hm
        exact (Option.some.inj hm).symm
      · exact fun h => h.1
  · by_cases hfd : fd = c.fd
    · subst hfd
      simp [Control.dropped]
    · simp [Control.dropped,hfd]

theorem wired_node_unique (hw : Wired L s) (hc : s.conns a = some c) (hn : c.wheelNode = some p)
    {b : ℕ} {d : ControlConn} (hd : s.conns b = some d) (hn' : d.wheelNode = some p) :
    b = a ∧ d = c := by
  obtain ⟨_,_,_,_,_,hv⟩ := hw.conn a c p hc hn
  obtain ⟨_,_,_,_,_,hv'⟩ := hw.conn b d p hd hn'
  obtain rfl : b = a := Option.some.inj (hv'.symm.trans hv)
  exact ⟨rfl,Option.some.inj (hd.symm.trans hc)⟩

theorem wired_freed (hw : Wired L s) (hc : s.conns a = some c) (hn : c.wheelNode = some p)
    {k : ℕ} (hk : k < timeWheelSlotCount) {ps qs : List ℕ} (hL : L k = ps++p::qs)
    {slots : ℕ → Option ℕ} {nodes : Heap ℕ}
    (ht : Table slots nodes timeWheelSlotCount (update L k (ps++qs)))
    (hval : ∀ q, (nodes q).map Cell.val = (s.nodes q).map Cell.val) :
    (∃ n, nodes p = some n) ∧
      Wired (erased L c.wheelNode) (s.dropped a c.fd slots (update nodes p none)) := by
  rw [hn]
  have ht := table_congr ht (erased_split hw.table hk hL)
  have hmem : ∀ j < timeWheelSlotCount, ∀ q, q ∈ erased L (some p) j ↔ q ∈ L j ∧ q ≠ p :=
    fun j hj q => mem_erased hw.table hk hj hL
  constructor
  · obtain ⟨_,_,_,_,_,hv⟩ := hw.conn a c p hc hn
    obtain ⟨n,hnode,_⟩ := Option.map_eq_some_iff.mp ((hval p).trans hv)
    exact ⟨n,hnode⟩
  · refine wired_dropped hw hc (table_update ht fun j hj hin => ((hmem j hj p).mp hin).2 rfl) ?_ ?_
    · intro j hj q
      rw [hmem j hj q,hn]
      simp [eq_comm]
    · intro q hq
      have hqp : q ≠ p := fun he => hq (by rw [hn,he])
      rw [update_of_ne hqp]
      exact hval q

theorem closeControlConnection_spec (hw : Wired L s) {fd : ℕ} (hm : s.connMap fd = some a) :
    ∃ c slots nodes, s.conns a = some c ∧ c.fd = fd ∧
      s.closeControlConnection fd = some (s.dropped a fd slots nodes) ∧
      Wired (erased L c.wheelNode) (s.dropped a fd slots nodes) := by
  obtain ⟨c,hc,rfl⟩ := hw.mapped fd a hm
  have hlt : ¬ maxControlFd ≤ c.fd := Nat.not_le.mpr (hw.owned a c hc).2
  cases hn : c.wheelNode with
  | none =>
    refine ⟨c,s.wheel.slots,s.nodes,hc,rfl,?_,?_⟩
    · simp [Control.closeControlConnection,Control.timeWheelRemove,hlt,hm,hc,hn,free,
        Control.dropped]
    · rw [hn]
      refine wired_dropped hw hc hw.table ?_ fun _ _ => rfl
      intro k _ q
      simp [hn,erased]
  | some p =>
    obtain ⟨k,ps,qs,hk,hs,hL⟩ := wired_split hw hc hn
    obtain ⟨slots,nodes,hdetach,htable,hval⟩ := detachNode_spec hw hc hk hs hn hL
    obtain ⟨⟨n,hnode⟩,hwired⟩ := wired_freed hw hc hn hk hL htable hval
    refine ⟨c,slots,update nodes p none,hc,rfl,?_,hwired⟩
    simp [Control.closeControlConnection,Control.timeWheelRemove,hlt,hm,hc,hn,hdetach,free,
      hnode,Control.setConn,Control.dropped]

section Ticks

theorem expire_spec (hw : Wired L s) (hc : s.conns a = some c) (hn : c.wheelNode = some p)
    {k : ℕ} (hk : k < timeWheelSlotCount) (hs : c.wheelSlot = k) {ps qs : List ℕ}
    (hL : L k = ps++p::qs) :
    ∃ s₁ s₂ slots nodes, s.detachNode a = some s₁ ∧
      (s₁.setConn a { c with wheelSlot := -1, wheelNode := none }).handleControlTimeout a =
        some s₂ ∧
      free s₂.nodes p = some nodes ∧
      { s₂ with nodes := nodes } = s.dropped a c.fd slots nodes ∧
      Wired (erased L c.wheelNode) (s.dropped a c.fd slots nodes) := by
  obtain ⟨hm,hlt⟩ := hw.owned a c hc
  have hlt : ¬ maxControlFd ≤ c.fd := Nat.not_le.mpr hlt
  obtain ⟨slots,nodes,hdetach,htable,hval⟩ := detachNode_spec hw hc hk hs hn hL
  obtain ⟨⟨n,hnode⟩,hwired⟩ := wired_freed hw hc hn hk hL htable hval
  refine ⟨_,s.dropped a c.fd slots nodes,slots,update nodes p none,hdetach,?_,?_,rfl,hwired⟩
  · simp [Control.handleControlTimeout,Control.closeControlConnection,Control.timeWheelRemove,
      Control.setConn,hlt,hm,free,Control.dropped]
  · simp [Control.dropped,free,hnode]

/-- One pass of the walk at the node `p`, and where it goes on. -/
def Control.tickVisit (s : Control) (p : ℕ) : Option (Option ℕ × Control) := do
  let node ← s.nodes p
  let a := nodeConn node
  let c ← s.conns a
  if c.expireTick ≤ s.wheel.currentTick then do
    let s₁ ← s.detachNode a
    let s₂ ← (s₁.setConn a { c with wheelSlot := -1, wheelNode := none }).handleControlTimeout a
    let nodes ← free s₂.nodes p
    some (node.next,{ s₂ with nodes := nodes })
  else some (node.next,s)

/-- The walk with the nodes it visits. -/
def Control.tickWalk : ℕ → Option ℕ → Control → Option (List ℕ × Control)
  | _, none, s => some ([],s)
  | 0, some _, _ => none
  | passes+1, some p, s => do
    let (next,s₁) ← s.tickVisit p
    let (visited,s₂) ← tickWalk passes next s₁
    some (p::visited,s₂)

theorem tickLoop_visit (passes : ℕ) (p : ℕ) (s : Control) :
    Control.tickLoop (passes+1) (some p) s =
      (s.tickVisit p).bind fun e => Control.tickLoop passes e.1 e.2 := by
  rw [Control.tickLoop.eq_3,Control.tickVisit]
  cases s.nodes p with
  | none => rfl
  | some node =>
    simp only [Option.bind_eq_bind,Option.bind_some]
    cases s.conns (nodeConn node) with
    | none => rfl
    | some c =>
      simp only [Option.bind_some]
      split
      · cases s.detachNode (nodeConn node) with
        | none => rfl
        | some s₁ =>
          simp only [Option.bind_some]
          cases (s₁.setConn (nodeConn node)
              { c with wheelSlot := -1, wheelNode := none }).handleControlTimeout (nodeConn node) with
          | none => rfl
          | some s₂ =>
            simp only [Option.bind_some]
            cases free s₂.nodes p with
            | none => rfl
            | some nodes => rfl
      · rfl

theorem tickLoop_walk (passes : ℕ) (node : Option ℕ) (s : Control) :
    Control.tickLoop passes node s = (Control.tickWalk passes node s).map Prod.snd := by
  induction passes generalizing node s with
  | zero => cases node <;> rfl
  | succ passes ih =>
    cases node with
    | none => rfl
    | some p =>
      rw [tickLoop_visit,Control.tickWalk]
      cases s.tickVisit p with
      | none => rfl
      | some e =>
        obtain ⟨next,s₁⟩ := e
        rw [Option.bind_some,ih]
        simp only [Option.bind_eq_bind,Option.bind_some]
        cases Control.tickWalk passes next s₁ with
        | none => rfl
        | some e => rfl

theorem wired_congr {L' : ℕ → List ℕ} (hw : Wired L s) (he : ∀ k < timeWheelSlotCount, L' k = L k) :
    Wired L' s where
  table := table_congr hw.table he
  node k hk p hp := hw.node k hk p (he k hk ▸ hp)
  conn a c p hc hn := by
    obtain ⟨k,hk,hs,hke,hp,hv⟩ := hw.conn a c p hc hn
    exact ⟨k,hk,hs,hke,by rwa [he k hk],hv⟩
  mapped := hw.mapped
  owned := hw.owned

theorem tickWalk_spec (stays : ℕ → Bool) (qs : List ℕ) : ∀ (passes : ℕ) (ps : List ℕ)
    (L : ℕ → List ℕ) (s : Control), qs.length ≤ passes → Wired L s →
    ∀ k < timeWheelSlotCount, L k = ps++qs →
    (∀ a c p, s.conns a = some c → c.wheelNode = some p →
      (stays p = true ↔ s.wheel.currentTick < c.expireTick)) →
    ∃ fds s', Control.tickWalk passes qs.head? s = some (qs,s') ∧
      Wired (update L k (ps++qs.filter stays)) s' ∧ Cleared fds s s' ∧
      s'.wheel.currentTick = s.wheel.currentTick ∧ fds.Nodup ∧
      ∀ fd, fd ∈ fds ↔ ∃ a c p, s.conns a = some c ∧ c.fd = fd ∧ c.wheelNode = some p ∧ p ∈ qs ∧
        c.expireTick ≤ s.wheel.currentTick := by
  induction qs with
  | nil =>
    intro passes ps L s _ hw k _ hL _
    have hsame : update L k (ps++[].filter stays) = L := by
      rw [List.filter_nil,← hL,update_eq_self]
    have hw' := wired_congr hw fun j _ => congrFun hsame j
    exact ⟨[],s,by cases passes <;> rfl,hw',cleared_nil s,rfl,List.nodup_nil,by simp⟩
  | cons p qs ih =>
    intro passes ps L s hlen hw k hk hL hstays
    obtain ⟨passes,rfl⟩ : ∃ n, passes = n+1 := ⟨passes-1,by simp at hlen; omega⟩
    have hlen : qs.length ≤ passes := by simpa using hlen
    obtain ⟨a,c,hc,hn,hs,hv⟩ := wired_node_owner hw hk (p := p) (by simp [hL])
    obtain ⟨n,hnode,hna⟩ := Option.map_eq_some_iff.mp hv
    obtain ⟨_,_,_,hnode',_,hnext,_⟩ := table_unlink hw.table hk hL
    obtain rfl := Option.some.inj (hnode'.symm.trans hnode)
    by_cases hdue : c.expireTick ≤ s.wheel.currentTick
    · obtain ⟨s₁,s₂,slots,nodes,hdetach,htimeout,hfree,hdropped,hw'⟩ :=
        expire_spec hw hc hn hk hs hL
      have hsplit := erased_split hw.table hk hL
      have hfirst := cleared_dropped hw hc slots nodes
      rw [hn] at hw'
      obtain ⟨fds,s',hloop,hwired,hclear,htick,hnd,hfds⟩ :=
        ih passes ps _ _ hlen hw' k hk (by rw [hsplit k hk,update_self])
          fun b d q hd hq => hstays b d q ((hfirst.conns b d).mp hd).1 hq
      have hgone : stays p = false := by
        rw [← Bool.not_eq_true,hstays a c p hc hn]
        omega
      refine ⟨c.fd::fds,s',?_,wired_congr hwired ?_,cleared_trans hfirst hclear,htick,?_,fun fd => ?_⟩
      · have hvisit : s.tickVisit p = some (qs.head?,s.dropped a c.fd slots nodes) := by
          simp only [Control.tickVisit,hnode,nodeConn,hna,hc,hdue,hdetach,htimeout,
            hfree,hdropped,hnext,Option.bind_eq_bind,Option.bind_some,if_true]
        rw [List.head?_cons,Control.tickWalk,hvisit]
        simp only [Option.bind_eq_bind,Option.bind_some,hloop]
      · intro j hj
        rw [List.filter_cons_of_neg (by rw [hgone]; decide)]
        by_cases hjk : j = k
        · rw [hjk,update_self,update_self]
        · rw [update_of_ne hjk,update_of_ne hjk,hsplit j hj,update_of_ne hjk]
      · refine List.nodup_cons.mpr ⟨fun hin => ?_,hnd⟩
        obtain ⟨b,d,q,hd,hfd,_⟩ := (hfds c.fd).mp hin
        exact ((hfirst.conns b d).mp hd).2 (by simp [hfd])
      · rw [List.mem_cons,hfds]
        constructor
        · rintro (rfl | ⟨b,d,q,hd,hfd,hq,hin,hle⟩)
          · exact ⟨a,c,p,hc,rfl,hn,by simp,hdue⟩
          · exact ⟨b,d,q,((hfirst.conns b d).mp hd).1,hfd,hq,by simp [hin],hle⟩
        · rintro ⟨b,d,q,hd,hfd,hq,hin,hle⟩
          rcases List.mem_cons.mp hin with rfl | hin
          · obtain ⟨_,rfl⟩ := wired_node_unique hw hc hn hd hq
            exact .inl hfd.symm
          · by_cases hsame : fd = c.fd
            · exact .inl hsame
            · exact .inr ⟨b,d,q,(hfirst.conns b d).mpr ⟨hd,by simpa [hfd] using hsame⟩,hfd,hq,
                hin,hle⟩
    · obtain ⟨fds,s',hloop,hwired,hclear,htick,hnd,hfds⟩ :=
        ih passes (ps++[p]) L s hlen hw k hk (by simp [hL]) hstays
      have hkept : stays p = true := (hstays a c p hc hn).mpr (by omega)
      refine ⟨fds,s',?_,?_,hclear,htick,hnd,fun fd => ?_⟩
      · have hvisit : s.tickVisit p = some (qs.head?,s) := by
          simp only [Control.tickVisit,hnode,nodeConn,hna,hc,hdue,hnext,
            Option.bind_eq_bind,Option.bind_some,if_false]
        rw [List.head?_cons,Control.tickWalk,hvisit]
        simp only [Option.bind_eq_bind,Option.bind_some,hloop]
      · rw [List.append_assoc,List.singleton_append] at hwired
        rw [List.filter_cons_of_pos hkept]
        exact hwired
      · rw [hfds]
        constructor
        · rintro ⟨b,d,q,hd,hfd,hq,hin,hle⟩
          exact ⟨b,d,q,hd,hfd,hq,by simp [hin],hle⟩
        · rintro ⟨b,d,q,hd,hfd,hq,hin,hle⟩
          rcases List.mem_cons.mp hin with rfl | hin
          · obtain ⟨_,rfl⟩ := wired_node_unique hw hc hn hd hq
            exact absurd hle hdue
          · exact ⟨b,d,q,hd,hfd,hq,hin,hle⟩

theorem wired_length (hw : Wired L s) {k : ℕ} (hk : k < timeWheelSlotCount) :
    (L k).length ≤ maxControlFd := by
  let f : ℕ → ℕ := fun p => ((s.nodes p).bind fun n => s.conns n.val).elim 0 ControlConn.fd
  have hf : ∀ p ∈ L k, ∃ a c, s.conns a = some c ∧ c.wheelNode = some p ∧ f p = c.fd := by
    intro p hp
    obtain ⟨a,c,hc,hn,_,hv⟩ := wired_node_owner hw hk hp
    obtain ⟨n,hnode,hna⟩ := Option.map_eq_some_iff.mp hv
    refine ⟨a,c,hc,hn,?_⟩
    simp [f,hnode,hna,hc]
  rw [← List.toFinset_card_of_nodup (hw.table.nodup k hk),← Finset.card_range maxControlFd]
  refine Finset.card_le_card_of_injOn f ?_ ?_
  · intro p hp
    obtain ⟨a,c,hc,_,he⟩ := hf p (by simpa using hp)
    have hlt := (hw.owned a c hc).2
    simpa [he] using hlt
  · intro p hp q hq he
    obtain ⟨a,c,hc,hn,hfp⟩ := hf p (by simpa using hp)
    obtain ⟨b,d,hd,hn',hfq⟩ := hf q (by simpa using hq)
    have hfd : c.fd = d.fd := by rw [← hfp,← hfq]; exact he
    have hm := (hw.owned a c hc).1
    rw [hfd,(hw.owned b d hd).1] at hm
    obtain rfl : b = a := Option.some.inj hm
    obtain rfl : c = d := Option.some.inj (hc.symm.trans hd)
    exact Option.some.inj (hn.symm.trans hn')

/-- The connection of the node is not due at `t`. -/
def Control.stays (s : Control) (t p : ℕ) : Bool :=
  match (s.nodes p).bind fun n => s.conns (nodeConn n) with
  | none => false
  | some c => t < c.expireTick

theorem stays_iff (hw : Wired L s) (t : ℕ) (hc : s.conns a = some c) (hn : c.wheelNode = some p) :
    s.stays t p = true ↔ t < c.expireTick := by
  obtain ⟨_,_,_,_,_,hv⟩ := hw.conn a c p hc hn
  obtain ⟨n,hnode,hna⟩ := Option.map_eq_some_iff.mp hv
  simp [Control.stays,hnode,nodeConn,hna,hc]

/-- One tick visits the nodes of a slot, each once, and closes connections of them. -/
theorem timeWheelTick_walk (hw : Wired L s) :
    ∃ fds s', s.timeWheelTick = some s' ∧
      Control.tickWalk maxControlFd
          (s.wheel.slots ((s.wheel.currentTick+1) % timeWheelSlotCount))
          { s with wheel := { s.wheel with currentTick := s.wheel.currentTick+1 } } =
        some (L ((s.wheel.currentTick+1) % timeWheelSlotCount),s') ∧
      Wired (update L ((s.wheel.currentTick+1) % timeWheelSlotCount)
        ((L ((s.wheel.currentTick+1) % timeWheelSlotCount)).filter
          (s.stays (s.wheel.currentTick+1)))) s' ∧ Cleared fds s s' ∧ fds.Nodup ∧
      s'.wheel.currentTick = s.wheel.currentTick+1 ∧
      ∀ fd, fd ∈ fds ↔ ∃ a c p, s.conns a = some c ∧ c.fd = fd ∧ c.wheelNode = some p ∧
        p ∈ L ((s.wheel.currentTick+1) % timeWheelSlotCount) ∧
        c.expireTick ≤ s.wheel.currentTick+1 := by
  have hw₁ : Wired L { s with wheel := { s.wheel with currentTick := s.wheel.currentTick+1 } } :=
    ⟨hw.table,hw.node,hw.conn,hw.mapped,hw.owned⟩
  have hk : (s.wheel.currentTick+1) % timeWheelSlotCount < timeWheelSlotCount :=
    Nat.mod_lt _ (by decide)
  obtain ⟨fds,s',hwalk,hw',hclear,htick,hnd,hfds⟩ :=
    tickWalk_spec (s.stays (s.wheel.currentTick+1)) _ maxControlFd [] L _ (wired_length hw hk) hw₁ _
      hk rfl fun a c p hc hn => stays_iff hw _ hc hn
  rw [← hw.table.head _ hk] at hwalk
  have hloop := tickLoop_walk maxControlFd (s.wheel.slots ((s.wheel.currentTick+1) % timeWheelSlotCount))
    { s with wheel := { s.wheel with currentTick := s.wheel.currentTick+1 } }
  rw [hwalk] at hloop
  exact ⟨fds,s',hloop,hwalk,hw',⟨hclear.conns,hclear.map,hclear.kernel,hclear.timeout⟩,hnd,htick,
    hfds⟩

/-- One tick closes the connections that are due at the new time, and no others. -/
theorem timeWheelTick_spec (hw : Wired L s) (hdue : NotDue (s.wheel.currentTick+1) s) :
    ∃ fds L' s', s.timeWheelTick = some s' ∧ Wired L' s' ∧ Cleared fds s s' ∧ fds.Nodup ∧
      s'.wheel.currentTick = s.wheel.currentTick+1 ∧ NotDue (s.wheel.currentTick+2) s' ∧
      ∀ fd, fd ∈ fds ↔ ∃ a c, s.conns a = some c ∧ c.fd = fd ∧ c.wheelNode.isSome ∧
        c.expireTick = s.wheel.currentTick+1 := by
  obtain ⟨fds,s',hrun,-,hw',hclear,hnd,htick,hfds⟩ := timeWheelTick_walk hw
  have hin : ∀ a c p, s.conns a = some c → c.wheelNode = some p →
      c.expireTick = s.wheel.currentTick+1 →
      p ∈ L ((s.wheel.currentTick+1) % timeWheelSlotCount) := by
    intro a c p hc hn he
    obtain ⟨k,_,_,hke,hp,_⟩ := hw.conn a c p hc hn
    rwa [← he,hke]
  have hchar : ∀ fd, fd ∈ fds ↔ ∃ a c, s.conns a = some c ∧ c.fd = fd ∧ c.wheelNode.isSome ∧
      c.expireTick = s.wheel.currentTick+1 := by
    intro fd
    rw [hfds]
    constructor
    · rintro ⟨a,c,p,hc,hfd,hn,_,hle⟩
      exact ⟨a,c,hc,hfd,by simp [hn],Nat.le_antisymm hle (hdue a c p hc hn)⟩
    · rintro ⟨a,c,hc,hfd,hsome,he⟩
      obtain ⟨p,hn⟩ := Option.isSome_iff_exists.mp hsome
      exact ⟨a,c,p,hc,hfd,hn,hin a c p hc hn he,Nat.le_of_eq he⟩
  refine ⟨fds,_,s',hrun,hw',hclear,hnd,htick,?_,hchar⟩
  intro a c p hc hn
  obtain ⟨hc₀,hout⟩ := (hclear.conns a c).mp hc
  have hle := hdue a c p hc₀ hn
  have hne : c.expireTick ≠ s.wheel.currentTick+1 := fun he =>
    hout ((hchar c.fd).mpr ⟨a,c,hc₀,rfl,by simp [hn],he⟩)
  omega

/-- Several ticks delivered at once close what is due at one of them. -/
theorem handleTimerEvent_spec (n : ℕ) : ∀ (L : ℕ → List ℕ) (s : Control), Wired L s →
    NotDue (s.wheel.currentTick+1) s →
    ∃ fds L' s', Control.handleTimerEvent n s = some s' ∧ Wired L' s' ∧ Cleared fds s s' ∧
      fds.Nodup ∧ s'.wheel.currentTick = s.wheel.currentTick+n ∧
      NotDue (s'.wheel.currentTick+1) s' ∧
      ∀ fd, fd ∈ fds ↔ ∃ a c, s.conns a = some c ∧ c.fd = fd ∧ c.wheelNode.isSome ∧
        c.expireTick ≤ s.wheel.currentTick+n := by
  induction n with
  | zero =>
    intro L s hw hdue
    refine ⟨[],L,s,rfl,hw,cleared_nil s,List.nodup_nil,rfl,hdue,fun fd => ?_⟩
    constructor
    · intro h
      cases h
    · rintro ⟨a,c,hc,_,hsome,hle⟩
      obtain ⟨p,hn⟩ := Option.isSome_iff_exists.mp hsome
      have := hdue a c p hc hn
      omega
  | succ n ih =>
    intro L s hw hdue
    obtain ⟨fds₁,L₁,s₁,htick,hw₁,hclear₁,hnd₁,ht₁,hdue₁,hfds₁⟩ := timeWheelTick_spec hw hdue
    obtain ⟨fds₂,L₂,s₂,hrest,hw₂,hclear₂,hnd₂,ht₂,hdue₂,hfds₂⟩ :=
      ih L₁ s₁ hw₁ (by rw [ht₁]; exact hdue₁)
    refine ⟨fds₁++fds₂,L₂,s₂,?_,hw₂,cleared_trans hclear₁ hclear₂,?_,by omega,hdue₂,fun fd => ?_⟩
    · simp only [Control.handleTimerEvent,htick,hrest,Option.bind_eq_bind,Option.bind_some]
    · refine List.nodup_append.mpr ⟨hnd₁,hnd₂,fun fd hfd fd' hfd' he => ?_⟩
      obtain ⟨a,c,hc,hcfd,_⟩ := (hfds₂ fd').mp hfd'
      exact ((hclear₁.conns a c).mp hc).2 (by rw [hcfd,← he]; exact hfd)
    · rw [List.mem_append,hfds₁,hfds₂,ht₁]
      constructor
      · rintro (⟨a,c,hc,hfd,hsome,he⟩ | ⟨a,c,hc,hfd,hsome,hle⟩)
        · exact ⟨a,c,hc,hfd,hsome,by omega⟩
        · exact ⟨a,c,((hclear₁.conns a c).mp hc).1,hfd,hsome,by omega⟩
      · rintro ⟨a,c,hc,hfd,hsome,hle⟩
        by_cases he : c.expireTick = s.wheel.currentTick+1
        · exact .inl ⟨a,c,hc,hfd,hsome,he⟩
        · refine .inr ⟨a,c,(hclear₁.conns a c).mpr ⟨hc,fun hin => ?_⟩,hfd,hsome,by omega⟩
          obtain ⟨b,d,hd,hdfd,_,hde⟩ := (hfds₁ c.fd).mp hin
          have hm := (hw.owned b d hd).1
          rw [hdfd,(hw.owned a c hc).1] at hm
          obtain rfl : a = b := Option.some.inj hm
          obtain rfl : c = d := Option.some.inj (hc.symm.trans hd)
          exact he hde

theorem handleTimerEvent_cleared (n : ℕ) : ∀ (L : ℕ → List ℕ) (s : Control), Wired L s →
    ∃ fds L' s', Control.handleTimerEvent n s = some s' ∧ Wired L' s' ∧ Cleared fds s s' ∧
      fds.Nodup ∧ ∀ fd ∈ fds, (s.connMap fd).isSome := by
  induction n with
  | zero => exact fun L s hw => ⟨[],L,s,rfl,hw,cleared_nil s,List.nodup_nil,by simp⟩
  | succ n ih =>
    intro L s hw
    obtain ⟨fds₁,s₁,htick,-,hw₁,hclear₁,hnd₁,_,hfds₁⟩ := timeWheelTick_walk hw
    obtain ⟨fds₂,L₂,s₂,hrest,hw₂,hclear₂,hnd₂,hfds₂⟩ := ih _ s₁ hw₁
    have hlater : ∀ fd ∈ fds₂, fd ∉ fds₁ ∧ (s.connMap fd).isSome := by
      intro fd hfd
      obtain ⟨a,ha⟩ := Option.isSome_iff_exists.mp (hfds₂ fd hfd)
      obtain ⟨ha₀,hout⟩ := (hclear₁.map fd a).mp ha
      exact ⟨hout,by simp [ha₀]⟩
    refine ⟨fds₁++fds₂,L₂,s₂,?_,hw₂,cleared_trans hclear₁ hclear₂,?_,fun fd hfd => ?_⟩
    · simp only [Control.handleTimerEvent,htick,hrest,Option.bind_eq_bind,Option.bind_some]
    · refine List.nodup_append.mpr ⟨hnd₁,hnd₂,fun fd hfd fd' hfd' he => ?_⟩
      exact (hlater fd' hfd').1 (by rw [← he]; exact hfd)
    · rcases List.mem_append.mp hfd with hfd | hfd
      · obtain ⟨a,c,_,hc,rfl,_⟩ := (hfds₁ fd).mp hfd
        simp [(hw.owned a c hc).1]
      · exact (hlater fd hfd).2

end Ticks

end Operations

end WindCloud
