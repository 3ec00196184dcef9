import WindCloud.Lib.Fifo
import WindCloud.Server.TimeWheel

/-!
# The main loop and the worker threads

`main` of `server.c` from its event loop on, `handle_accept_event`, and
`thread_func` of `worker.c`. A step is one of their actions on descriptors; what
they do while they hold the lock of the pool is one step. Epoll may report any
descriptor in any order. A worker's request is one step, for it leaves the
descriptor of its connection alone; so does `shutdown`. Without memory for a
queue node the process dies and takes no step.
-/

set_option autoImplicit false

namespace WindCloud
open Function

structure ThreadPool where
  nodes : Fifo.Heap ℕ
  queue : Fifo.Queue
  exitFlag : Bool
  busyFds : ℕ → ℤ

inductive Worker where
  | waiting
  | taken (clientFd : ℕ)
  | handled (clientFd : ℕ)
  | closed
  | exited
  deriving DecidableEq, Repr

inductive MainThread where
  | loop
  | accepted (connFd : ℕ)
  | closingListen
  | closingControl (connFd : ℕ)
  | joining (i : ℕ)
  | returned
  deriving DecidableEq, Repr

/-- The descriptors `main` opens before its loop, in this order. -/
structure MainFds where
  pipeRead : ℕ
  pipeWrite : ℕ
  listenFd : ℕ
  timerFd : ℕ
  epfd : ℕ
  deriving DecidableEq, Repr

def MainFds.all (d : MainFds) : List ℕ := [d.pipeRead,d.pipeWrite,d.listenFd,d.timerFd,d.epfd]

/-- The process. `queued` lists the connections that entered the queue, `left`
those that left it with the worker that took them, or `none` for the exit
branch, and `served` the requests handled, each with its worker. -/
structure Service where
  fds : MainFds
  num : ℕ
  control : Control
  pool : ThreadPool
  worker : ℕ → Worker
  main : MainThread
  queued : List (Option ℕ)
  left : List (Option ℕ × Option ℕ)
  served : List (ℕ × Option ℕ)

/-- A step of a thread, with what the environment supplies. -/
inductive ServiceEvent where
  | accept (fd : ℕ)
  | initFailed
  | invalidRole
  | controlRole (a calloc : Option ℕ)
  | transferRole (p : ℕ)
  | control (fd : ℕ) (received : Option ClientContext) (calloc : Option ℕ)
  | timer (expiredCount : ℕ)
  | exit
  | closeListen
  | closeControl
  | join
  | finish
  | take (i : ℕ)
  | handle (i : ℕ)
  | close (i : ℕ)
  | clear (i : ℕ)
  deriving DecidableEq, Repr

namespace Service

def kernel (s : Service) : Kernel := s.control.kernel

def setKernel (s : Service) (k : Kernel) : Service :=
  { s with control := { s.control with kernel := k } }

def closeFd (s : Service) (fd : ℕ) : Service := s.setKernel (s.kernel.close fd)

def setWorker (s : Service) (i : ℕ) (w : Worker) : Service :=
  { s with worker := update s.worker i w }

/-- The transfer branch of `handle_accept_event`. -/
def enQueue (s : Service) (fd p : ℕ) : Option Service := do
  let (nodes,queue) ← Fifo.enter s.pool.nodes s.pool.queue p fd
  some { s with
    pool := { s.pool with nodes := nodes, queue := queue }
    queued := s.queued ++ [s.kernel.files fd] }

/-- `who` takes the head of the queue, or nothing when it is empty. -/
def deQueue (s : Service) (who : Option ℕ) : Option (Option ℕ × Service) := do
  let (fd,nodes,queue) ← Fifo.leave s.pool.nodes s.pool.queue
  some (fd,{ s with
    pool := { s.pool with nodes := nodes, queue := queue }
    left := s.left ++ (fd.map fun fd => (who,s.kernel.files fd)).toList })

/-- The loop of the exit branch over the queue. -/
def drainQueue : (size : ℕ) → Service → Option Service
  | 0, s => some s
  | size+1, s => do
    let (fd,s₁) ← s.deQueue none
    match fd with
    | none => drainQueue size s₁
    | some fd => drainQueue size (s₁.closeFd fd)

/-- The locked section of a worker that is awake. -/
def takeTask (s : Service) (i : ℕ) : Option Service :=
  if s.pool.exitFlag then some (s.setWorker i .exited)
  else do
    let (fd,s₁) ← s.deQueue (some i)
    match fd with
    | none => none
    | some fd =>
      some ({ s₁ with pool := { s₁.pool with busyFds := update s₁.pool.busyFds i fd } }.setWorker i
        (.taken fd))

/-- `handle_accept_event` after the init packet, or its absence. -/
def acceptStep (s : Service) (connFd : ℕ) : ServiceEvent → Option Service
  | .initFailed | .invalidRole => some { s.closeFd connFd with main := .loop }
  | .controlRole a calloc => do
    let control ← s.control.acceptControl connFd a calloc
    some { s with control := control, main := .loop }
  | .transferRole p => do
    let s₁ ← s.enQueue connFd p
    some { s₁ with main := .loop }
  | _ => none

def loopStep (s : Service) : ServiceEvent → Option Service
  | .accept fd => some { s.setKernel (s.kernel.accept fd) with main := .accepted fd }
  | .control fd received calloc => do
    let control ← s.control.handleControlEvent fd received calloc
    some { s with control := control }
  | .timer expiredCount => do
    let control ← Control.handleTimerEvent expiredCount s.control
    some { s with control := control }
  | .exit => do
    let s₁ ← drainQueue s.pool.queue.size { s with pool := { s.pool with exitFlag := true } }
    some { s₁ with main := .closingListen }
  | _ => none

/-- The rest of the exit branch, after its locked section. -/
def exitStep (s : Service) : ServiceEvent → Option Service
  | .closeListen =>
    match s.main with
    | .closingListen => some { s.closeFd s.fds.listenFd with main := .closingControl 0 }
    | _ => none
  | .closeControl =>
    match s.main with
    | .closingControl connFd =>
      if connFd < maxControlFd then do
        let control ← s.control.closeControlConnection connFd
        some { s with control := control, main := .closingControl (connFd+1) }
      else some { s with main := .joining 0 }
    | _ => none
  | .join =>
    match s.main with
    | .joining i => some { s with main := .joining (i+1) }
    | _ => none
  | .finish =>
    some { (((s.closeFd s.fds.timerFd).closeFd s.fds.pipeRead).closeFd s.fds.pipeWrite).closeFd
      s.fds.epfd with main := .returned }
  | _ => none

def workerStep (s : Service) : ServiceEvent → Option Service
  | .take i => s.takeTask i
  | .handle i =>
    match s.worker i with
    | .taken fd =>
      some ({ s with served := s.served ++ [(i,s.kernel.files fd)] }.setWorker i (.handled fd))
    | _ => none
  | .close i =>
    match s.worker i with
    | .handled fd => some ((s.closeFd fd).setWorker i .closed)
    | _ => none
  | .clear i =>
    some ({ s with pool := { s.pool with busyFds := update s.pool.busyFds i (-1) } }.setWorker i
      .waiting)
  | _ => none

def step (s : Service) (e : ServiceEvent) : Option Service :=
  match e with
  | .accept _ | .control _ _ _ | .timer _ | .exit => s.loopStep e
  | .initFailed | .invalidRole | .controlRole _ _ | .transferRole _ =>
    match s.main with
    | .accepted fd => s.acceptStep fd e
    | _ => none
  | .closeListen | .closeControl | .join | .finish => s.exitStep e
  | .take _ | .handle _ | .close _ | .clear _ => s.workerStep e

/-- The steps a state allows. A descriptor from `accept` is not open, memory
from `calloc` is not allocated, and a worker waits while there is no task. -/
def Enabled (s : Service) : ServiceEvent → Prop
  | .accept fd => s.main = .loop ∧ s.kernel.files fd = none
  | .initFailed | .invalidRole => ∃ fd, s.main = .accepted fd
  | .controlRole a calloc => (∃ fd, s.main = .accepted fd) ∧
      (∀ b, a = some b → s.control.conns b = none) ∧ ∀ p, calloc = some p → s.control.nodes p = none
  | .transferRole p => (∃ fd, s.main = .accepted fd) ∧ s.pool.nodes p = none
  | .control _ _ calloc => s.main = .loop ∧ ∀ p, calloc = some p → s.control.nodes p = none
  | .timer _ | .exit => s.main = .loop
  | .closeListen => s.main = .closingListen
  | .closeControl => ∃ fd, s.main = .closingControl fd
  | .join => ∃ i, s.main = .joining i ∧ i < s.num ∧ s.worker i = .exited
  | .finish => s.main = .joining s.num
  | .take i => i < s.num ∧ s.worker i = .waiting ∧ (s.pool.exitFlag ∨ s.pool.queue.size ≠ 0)
  | .handle i => i < s.num ∧ ∃ fd, s.worker i = .taken fd
  | .close i => i < s.num ∧ ∃ fd, s.worker i = .handled fd
  | .clear i => i < s.num ∧ s.worker i = .closed

end Service

def emptyKernel : Kernel := ⟨fun _ => none,0,[]⟩

/-- The process as it enters the loop, with `num` workers. -/
def serviceInit (d : MainFds) (num timeoutSec : ℕ) : Service where
  fds := d
  num := num
  control := ⟨timeWheelInit timeoutSec,fun _ => none,fun _ => none,fun _ => none,
    d.all.foldl Kernel.accept emptyKernel⟩
  pool := ⟨fun _ => none,Fifo.empty,false,fun _ => -1⟩
  worker _ := .waiting
  main := .loop
  queued := []
  left := []
  served := []

inductive ServiceRun (d : MainFds) (num timeoutSec : ℕ) : Service → Prop
  | start (distinct : d.all.Nodup) : ServiceRun d num timeoutSec (serviceInit d num timeoutSec)
  | step {s s' : Service} {e : ServiceEvent} (run : ServiceRun d num timeoutSec s)
      (enabled : s.Enabled e) (next : s.step e = some s') : ServiceRun d num timeoutSec s'

end WindCloud
