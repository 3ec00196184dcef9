import WindCloud.Common.Protocol
import WindCloud.Lib.Links

/-!
# Control connections and their time wheel

`time_wheel.c`, and the functions of `server.c` which register, serve, time out
and close control connections. Nodes and connections lie in memory under their
addresses; an access to memory which is not allocated has no result. A `none`
from an allocation is a null pointer. Ticks are seconds, counted without bound.
-/

set_option autoImplicit false

namespace WindCloud
open Function Links

def timeWheelSlotCount : ℕ := 60

def maxControlFd : ℕ := 65536

abbrev TimeWheelNode := Cell ℕ

def nodeConn (n : TimeWheelNode) : ℕ := n.val

structure ControlConn where
  fd : ℕ
  ctx : ClientContext
  expireTick : ℕ
  wheelSlot : ℤ
  wheelNode : Option ℕ
  deriving DecidableEq, Repr

structure TimeWheel where
  slots : ℕ → Option ℕ
  currentTick : ℕ
  timeoutSec : ℕ

/-- The kernel's side: the accepted connection each open descriptor stands for,
and what every `close` call has closed. Connections are numbered as accepted. -/
structure Kernel where
  files : ℕ → Option ℕ
  accepted : ℕ
  closes : List (Option ℕ)

def Kernel.accept (k : Kernel) (fd : ℕ) : Kernel :=
  { k with files := update k.files fd (some k.accepted), accepted := k.accepted+1 }

def Kernel.close (k : Kernel) (fd : ℕ) : Kernel :=
  { k with files := update k.files fd none, closes := k.closes ++ [k.files fd] }

/-- What the main thread works on. -/
structure Control where
  wheel : TimeWheel
  nodes : Heap ℕ
  conns : ℕ → Option ControlConn
  connMap : ℕ → Option ℕ
  kernel : Kernel

def free {α : Type} (h : ℕ → Option α) (p : ℕ) : Option (ℕ → Option α) :=
  (h p).map fun _ => update h p none

/-- A slot is written; the index has to lie inside the array. -/
def TimeWheel.setSlot (w : TimeWheel) (slot : ℤ) (head : Option ℕ) : Option TimeWheel :=
  if 0 ≤ slot ∧ slot < timeWheelSlotCount then
    some { w with slots := update w.slots slot.toNat head }
  else none

def timeWheelInit (timeoutSec : ℕ) : TimeWheel := ⟨fun _ => none,0,timeoutSec⟩

def controlConnInit (fd : ℕ) : ControlConn := ⟨fd,⟨-1,"/".toList,0⟩,0,-1,none⟩

namespace Control

def setConn (s : Control) (a : ℕ) (c : ControlConn) : Control :=
  { s with conns := update s.conns a (some c) }

def newNode (s : Control) (p a : ℕ) : Control :=
  { s with nodes := update s.nodes p (some ⟨none,none,a⟩) }

def newConn (s : Control) (a fd : ℕ) : Control :=
  { s with
    conns := update s.conns a (some (controlConnInit fd))
    connMap := update s.connMap fd (some a) }

def detachNode (s : Control) (a : ℕ) : Option Control := do
  let c ← s.conns a
  match c.wheelNode with
  | none => some s
  | some p =>
    let (node,nodes) ← unlink s.nodes p
    match node.prev with
    | some _ => some { s with nodes := nodes }
    | none =>
      let wheel ← s.wheel.setSlot c.wheelSlot node.next
      some { s with nodes := nodes, wheel := wheel }

/-- The second half of `time_wheel_add`: the node goes to the front of its slot. -/
def placeNode (s : Control) (a : ℕ) (c : ControlConn) (p : ℕ) : Option Control := do
  let expireTick := s.wheel.currentTick+s.wheel.timeoutSec
  let slot := expireTick % timeWheelSlotCount
  let nodes ← push s.nodes (s.wheel.slots slot) p
  let wheel ← s.wheel.setSlot slot (some p)
  some { s with
    wheel := wheel
    nodes := nodes
    conns := update s.conns a
      (some { c with expireTick := expireTick, wheelSlot := slot, wheelNode := some p }) }

/-- `calloc` is the address of the new node, should one be needed. -/
def timeWheelAdd (s : Control) (a : ℕ) (calloc : Option ℕ) : Option Control := do
  let c ← s.conns a
  match c.wheelNode with
  | some p => s.placeNode a c p
  | none =>
    match calloc with
    | none => some s
    | some p => (s.newNode p a).placeNode a c p

def timeWheelRefresh (s : Control) (a : ℕ) (calloc : Option ℕ) : Option Control := do
  let c ← s.conns a
  if c.wheelNode.isSome ∧ 0 ≤ c.wheelSlot then do
    let s₁ ← s.detachNode a
    s₁.timeWheelAdd a calloc
  else s.timeWheelAdd a calloc

def timeWheelRemove (s : Control) (a : ℕ) : Option Control := do
  let c ← s.conns a
  match c.wheelNode with
  | none => some s
  | some p =>
    let s₁ ← s.detachNode a
    let nodes ← free s₁.nodes p
    some ({ s₁ with nodes := nodes }.setConn a { c with wheelSlot := -1, wheelNode := none })

def closeControlConnection (s : Control) (fd : ℕ) : Option Control := do
  if maxControlFd ≤ fd then some s
  else
    match s.connMap fd with
    | none => some s
    | some a =>
      let s₁ ← s.timeWheelRemove a
      let conns ← free s₁.conns a
      some { s₁ with
        conns := conns
        connMap := update s₁.connMap fd none
        kernel := s₁.kernel.close fd }

def handleControlTimeout (s : Control) (a : ℕ) : Option Control := do
  let c ← s.conns a
  s.closeControlConnection c.fd

/-- The walk of `time_wheel_tick` over one slot, from `node` on. -/
def tickLoop : ℕ → Option ℕ → Control → Option Control
  | _, none, s => some s
  | 0, some _, _ => none
  | passes+1, some p, s => do
    let node ← s.nodes p
    let a := nodeConn node
    let c ← s.conns a
    if c.expireTick ≤ s.wheel.currentTick then do
      let s₁ ← s.detachNode a
      let s₂ ← (s₁.setConn a { c with wheelSlot := -1, wheelNode := none }).handleControlTimeout a
      let nodes ← free s₂.nodes p
      tickLoop passes node.next { s₂ with nodes := nodes }
    else tickLoop passes node.next s

def timeWheelTick (s : Control) : Option Control :=
  let s₁ := { s with wheel := { s.wheel with currentTick := s.wheel.currentTick+1 } }
  tickLoop maxControlFd
    (s₁.wheel.slots (s₁.wheel.currentTick % timeWheelSlotCount)) s₁

def handleTimerEvent : (expiredCount : ℕ) → Control → Option Control
  | 0, s => some s
  | expiredCount+1, s => do
    let s₁ ← s.timeWheelTick
    handleTimerEvent expiredCount s₁

/-- `a` is the address of the connection and `calloc` that of its node. The
result says whether the connection is registered. -/
def registerControlConnection (s : Control) (connFd : ℕ) (a calloc : Option ℕ) :
    Option (Bool × Control) := do
  if maxControlFd ≤ connFd then some (false,s)
  else
    match a with
    | none => some (false,s)
    | some a =>
      let s₁ ← (s.newConn a connFd).timeWheelAdd a calloc
      some (true,s₁)

/-- A command on a control connection. `received` is the context its dispatch
leaves, and `none` where no packet arrives. -/
def handleControlEvent (s : Control) (fd : ℕ) (received : Option ClientContext)
    (calloc : Option ℕ) : Option Control := do
  if maxControlFd ≤ fd then some s
  else
    match s.connMap fd with
    | none => some s
    | some a =>
      match received with
      | none => s.closeControlConnection fd
      | some ctx =>
        let c ← s.conns a
        (s.setConn a { c with ctx := ctx }).timeWheelRefresh a calloc

/-- `handle_accept_event` for a control connection, its init packet received. -/
def acceptControl (s : Control) (connFd : ℕ) (a calloc : Option ℕ) : Option Control := do
  let (registered,s₁) ← s.registerControlConnection connFd a calloc
  if registered then some s₁ else some { s₁ with kernel := s₁.kernel.close connFd }

end Control

end WindCloud
