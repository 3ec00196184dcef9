import WindCloud.Lib.CString
import WindCloud.Lib.Pool
import WindCloud.Lib.Stock

/-!
# The pool of database connections

`db_pool.c`: a stack of connections in an array, whose two locked sections are
single operations here, and the two functions which run a statement on a
connection they take from it. A connection is the address of its handle. An
access outside the array has no result, and a thread that finds the stack empty
waits.
-/

set_option autoImplicit false

namespace WindCloud
open CString Effect Function Stock

def maxPoolSize : ℕ := 10

structure DbPool where
  connPool : ℕ → Option ℕ
  poolTop : ℤ
  gPoolSize : ℤ

inductive PoolOp where
  | getConnection
  | releaseConnection (conn : Option ℕ)
  | mysqlQuery (conn : Option ℕ) (sql : Text)
  | mysqlError (conn : Option ℕ)
  | mysqlStoreResult (conn : Option ℕ)
  deriving DecidableEq, Repr

/-- A result set is the address of it. -/
abbrev PoolOp.Res : PoolOp → Type
  | .getConnection => Option ℕ
  | .releaseConnection _ => Unit
  | .mysqlQuery _ _ => ℤ
  | .mysqlError _ => Text
  | .mysqlStoreResult _ => Option ℕ

abbrev Pooled (α : Type) := Program PoolOp PoolOp.Res α

inductive PoolChoice where
  | ok
  | code (ret : ℤ)
  | result (res : Option ℕ)
  | message (text : Text)
  deriving DecidableEq, Repr

namespace DbPool

def initial : DbPool := ⟨fun _ => none,-1,0⟩

/-- `pool_top` is moved up and the connection is written there. -/
def put (p : DbPool) (conn : ℕ) : Option DbPool :=
  if 0 ≤ p.poolTop+1 ∧ p.poolTop+1 < maxPoolSize then
    some { p with
      connPool := update p.connPool (p.poolTop+1).toNat (some conn)
      poolTop := p.poolTop+1 }
  else none

def getConnection (p : DbPool) : Option (Option ℕ × DbPool) :=
  if 0 ≤ p.poolTop ∧ p.poolTop < maxPoolSize then
    some (p.connPool p.poolTop.toNat,{ p with poolTop := p.poolTop-1 })
  else none

def releaseConnection (p : DbPool) (conn : Option ℕ) : Option DbPool :=
  match conn with
  | none => some p
  | some c => p.put c

end DbPool

/-- What an operation does to the pool. -/
def poolExec {ι : Type} : (o : PoolOp) → ι → DbPool → PoolChoice → Option (o.Res × DbPool)
  | .getConnection, _, p, .ok => p.getConnection
  | .releaseConnection conn, _, p, .ok => (p.releaseConnection conn).map fun p' => ((),p')
  | .mysqlQuery _ _, _, p, .code ret => some (ret,p)
  | .mysqlError _, _, p, .message text => some (text,p)
  | .mysqlStoreResult _, _, p, .result res => some (res,p)
  | _, _, _, _ => none

/-- What a thread holds after an operation. -/
def holding : (o : PoolOp) → o.Res → DbPool → Option ℕ → Option ℕ
  | .getConnection, conn, _, _ => conn
  | .releaseConnection _, _, _, _ => none
  | _, _, _, held => held

def dbPool (ι : Type) [DecidableEq ι] :
    Machine PoolOp PoolOp.Res ι (DbPool × (ι → Option ℕ)) PoolChoice :=
  Machine.recorded ⟨poolExec⟩ holding

def getConnection : Pooled (Option ℕ) := Program.perform PoolOp.getConnection

def releaseConnection (conn : Option ℕ) : Pooled Unit :=
  Program.perform (PoolOp.releaseConnection conn)

def mysqlQuery (conn : Option ℕ) (sql : Text) : Pooled ℤ :=
  Program.perform (PoolOp.mysqlQuery conn sql)

def mysqlError (conn : Option ℕ) : Pooled Text := Program.perform (PoolOp.mysqlError conn)

def mysqlStoreResult (conn : Option ℕ) : Pooled (Option ℕ) :=
  Program.perform (PoolOp.mysqlStoreResult conn)

def dbExecuteUpdate (sql : Text) : Pooled ℤ := do
  let conn ← getConnection
  let ret ← mysqlQuery conn sql
  if ret ≠ 0 then do
    let _ ← mysqlError conn
    releaseConnection conn
    pure (-1)
  else do
    releaseConnection conn
    pure 0

def dbExecuteQuery (sql : Text) : Pooled (Option ℕ) := do
  let conn ← getConnection
  let ret ← mysqlQuery conn sql
  if ret ≠ 0 then do
    let _ ← mysqlError conn
    releaseConnection conn
    pure none
  else do
    let res ← mysqlStoreResult conn
    releaseConnection conn
    pure res

/-- What `mysql_init` and `mysql_real_connect` return in a pass of the loop. -/
structure Start where
  handle : Option ℕ
  connected : Bool
  deriving DecidableEq, Repr

/-- The loop of `init_db_pool`, `left` passes being left. -/
def initLoop : (left : ℕ) → List Start → DbPool → Option (ℤ × DbPool)
  | 0, _, p => some (0,p)
  | _+1, [], _ => none
  | left+1, s::starts, p =>
    match s.handle with
    | none => some (-1,p)
    | some conn =>
      if s.connected then do
        let p' ← p.put conn
        initLoop left starts p'
      else some (-1,p)

def initDbPool (poolSize : ℤ) (starts : List Start) (p : DbPool) : Option (ℤ × DbPool) :=
  let size := if (maxPoolSize : ℤ) < poolSize then (maxPoolSize : ℤ) else poolSize
  initLoop size.toNat starts { p with gPoolSize := size }

/-- `conn_pool[0..pool_top]`. -/
def DbPool.pooled (p : DbPool) : List (Option ℕ) :=
  (List.range (p.poolTop+1).toNat).map p.connPool

/-- A thread that works by the two functions alone. -/
inductive DbThread {α : Type} : Pooled α → Prop
  | done (a : α) : DbThread (.ret a)
  | update (sql : Text) (rest : ℤ → Pooled α) (next : ∀ ret, DbThread (rest ret)) :
      DbThread (dbExecuteUpdate sql >>= rest)
  | query (sql : Text) (rest : Option ℕ → Pooled α) (next : ∀ res, DbThread (rest res)) :
      DbThread (dbExecuteQuery sql >>= rest)

section Stacks

/-- The stack holds `conns`, the last of them on top. -/
structure Stacked (p : DbPool) (conns : List ℕ) : Prop where
  top : p.poolTop = conns.length-1
  cell : ∀ k, k < conns.length → p.connPool k = conns[k]?

variable {p p' : DbPool} {conns : List ℕ} {c : ℕ}

theorem stacked_pooled (h : Stacked p conns) : p.pooled = conns.map some := by
  have hlen : (p.poolTop+1).toNat = conns.length := by
    have := h.top
    omega
  unfold DbPool.pooled
  rw [hlen]
  apply List.ext_getElem
  · rw [List.length_map,List.length_map,List.length_range]
  · intro k hk _
    have hk' : k < conns.length := by simpa using hk
    rw [List.getElem_map,List.getElem_map,List.getElem_range,h.cell k hk',
      List.getElem?_eq_getElem hk']

theorem stacked_put (h : Stacked p conns) (hroom : conns.length < maxPoolSize) (c : ℕ) :
    ∃ p', p.put c = some p' ∧ Stacked p' (conns ++ [c]) ∧ p'.gPoolSize = p.gPoolSize := by
  have htop := h.top
  refine ⟨_,if_pos ⟨by omega,by omega⟩,⟨?_,fun k hk => ?_⟩,rfl⟩
  · show p.poolTop+1 = _
    rw [List.length_append,List.length_singleton]
    omega
  · rw [List.length_append,List.length_singleton] at hk
    have hnat : (p.poolTop+1).toNat = conns.length := by omega
    show update p.connPool _ _ k = _
    rw [hnat]
    by_cases hlast : k = conns.length
    · rw [hlast,update_self,List.getElem?_append_right (Nat.le_refl _),Nat.sub_self]
      rfl
    · have hlt : k < conns.length := by omega
      rw [update_of_ne hlast,h.cell k hlt,List.getElem?_append_left hlt]

theorem stacked_get (h : Stacked p (conns ++ [c])) (hroom : (conns ++ [c]).length ≤ maxPoolSize) :
    ∃ p', p.getConnection = some (some c,p') ∧ Stacked p' conns ∧ p'.gPoolSize = p.gPoolSize := by
  have htop := h.top
  rw [List.length_append,List.length_singleton] at htop hroom
  have hnat : p.poolTop.toNat = conns.length := by omega
  have hcell : p.connPool p.poolTop.toNat = some c := by
    rw [hnat,h.cell _ (by rw [List.length_append,List.length_singleton]; omega),
      List.getElem?_append_right (Nat.le_refl _),Nat.sub_self]
    rfl
  refine ⟨{ p with poolTop := p.poolTop-1 },?_,⟨?_,fun k hk => ?_⟩,rfl⟩
  · rw [DbPool.getConnection,if_pos ⟨by omega,by omega⟩,hcell]
  · show p.poolTop-1 = _
    omega
  · have hcells := h.cell k (by rw [List.length_append,List.length_singleton]; omega)
    rw [List.getElem?_append_left hk] at hcells
    exact hcells

theorem stacked_empty (h : Stacked p []) : p.getConnection = none := by
  have htop := h.top
  rw [List.length_nil] at htop
  exact if_neg (by omega)

theorem initLoop_stacked (starts : List Start) (left : ℕ) (h : Stacked p conns)
    (hroom : conns.length+left ≤ maxPoolSize) (hi : initLoop left starts p = some (0,p')) :
    ∃ more, more.length = left ∧ (starts.take left).map Start.handle = more.map some ∧
      Stacked p' (conns ++ more) ∧ p'.gPoolSize = p.gPoolSize := by
  induction left generalizing starts p conns with
  | zero =>
    obtain rfl : p = p' := by simpa [initLoop] using hi
    exact ⟨[],rfl,rfl,by rw [List.append_nil]; exact h,rfl⟩
  | succ left ih =>
    cases starts with
    | nil => simp [initLoop] at hi
    | cons s starts =>
      obtain ⟨handle,connected⟩ := s
      cases handle with
      | none => simp [initLoop] at hi
      | some c =>
        cases connected with
        | false => simp [initLoop] at hi
        | true =>
          obtain ⟨p₁,hput,h₁,hsize⟩ := stacked_put h (by omega) c
          have hrest : initLoop left starts p₁ = some (0,p') := by
            simpa [initLoop,hput] using hi
          obtain ⟨more,hlen,hstarts,hs,hsize'⟩ := ih starts h₁
            (by rw [List.length_append,List.length_singleton]; omega) hrest
          refine ⟨c::more,by rw [List.length_cons,hlen],?_,?_,hsize'.trans hsize⟩
          · rw [List.take_succ_cons,List.map_cons,List.map_cons,hstarts]
          · rw [List.append_assoc,List.singleton_append] at hs
            exact hs

end Stacks

section Threads

variable {α : Type}

/-- What is left of a thread's program gives back what the thread holds, and uses
nothing else. -/
def GivesBack : Pooled α → Option ℕ → Prop
  | .ret _, held => held = none
  | .op .getConnection k, held => held = none ∧ ∀ c, GivesBack (k (some c)) (some c)
  | .op (.releaseConnection conn) k, held => conn = held ∧ held ≠ none ∧ GivesBack (k ()) none
  | .op (.mysqlQuery conn _) k, held => conn = held ∧ held ≠ none ∧ ∀ ret, GivesBack (k ret) held
  | .op (.mysqlError conn) k, held => conn = held ∧ held ≠ none ∧ ∀ text, GivesBack (k text) held
  | .op (.mysqlStoreResult conn) k, held =>
    conn = held ∧ held ≠ none ∧ ∀ res, GivesBack (k res) held

theorem update_givesBack (sql : Text) (rest : ℤ → Pooled α) (h : ∀ ret, GivesBack (rest ret) none) :
    GivesBack (dbExecuteUpdate sql >>= rest) none := by
  refine ⟨rfl,fun c => ⟨rfl,by simp,fun ret => ?_⟩⟩
  change GivesBack ((if ret ≠ 0 then _ else _) >>= rest) _
  split
  · exact ⟨rfl,by simp,fun text => ⟨rfl,by simp,h (-1)⟩⟩
  · exact ⟨rfl,by simp,h 0⟩

theorem query_givesBack (sql : Text) (rest : Option ℕ → Pooled α)
    (h : ∀ res, GivesBack (rest res) none) : GivesBack (dbExecuteQuery sql >>= rest) none := by
  refine ⟨rfl,fun c => ⟨rfl,by simp,fun ret => ?_⟩⟩
  change GivesBack ((if ret ≠ 0 then _ else _) >>= rest) _
  split
  · exact ⟨rfl,by simp,fun text => ⟨rfl,by simp,h none⟩⟩
  · exact ⟨rfl,by simp,fun res => ⟨rfl,by simp,h res⟩⟩

theorem thread_givesBack {p : Pooled α} (h : DbThread p) : GivesBack p none := by
  induction h with
  | done a => rfl
  | update sql rest _ ih => exact update_givesBack sql rest ih
  | query sql rest _ ih => exact query_givesBack sql rest ih

theorem thread_free {p : Pooled α} {held : Option ℕ} (h : DbThread p) (hb : GivesBack p held) :
    held = none := by
  cases h with
  | done a => exact hb
  | update sql rest _ => exact hb.1
  | query sql rest _ => exact hb.1

end Threads

section Runs

variable {ι α : Type} [DecidableEq ι]

abbrev DbThreads (ι α : Type) :=
  Effect.Pool PoolOp PoolOp.Res ι (DbPool × (ι → Option ℕ)) α

/-- The connections `all` are on the stack or held, and every thread has what its
program is going to give back. -/
structure Conserved (all : List ℕ) (P : DbThreads ι α) : Prop where
  shares : ∃ conns, Stacked P.state.1 conns ∧ Shared all conns P.state.2
  size : P.state.1.gPoolSize = all.length
  gives : ∀ i, GivesBack (P.progs i) (P.state.2 i)

variable {all : List ℕ} {P : DbThreads ι α}

theorem conserved_still (h : Conserved all P) {i : ι} {p : Pooled α}
    (hp : GivesBack p (P.state.2 i)) : Conserved all ⟨update P.progs i p,P.state⟩ where
  shares := h.shares
  size := h.size
  gives j := by
    by_cases hj : j = i
    · subst hj
      simpa using hp
    · simpa [hj] using h.gives j

theorem conserved_moved (h : Conserved all P) {i : ι} {p : Pooled α} {pool : DbPool}
    {conns : List ℕ} {c : Option ℕ} (hs : Stacked pool conns)
    (hshare : Shared all conns (update P.state.2 i c)) (hsize : pool.gPoolSize = all.length)
    (hp : GivesBack p c) : Conserved all ⟨update P.progs i p,(pool,update P.state.2 i c)⟩ where
  shares := ⟨conns,hs,hshare⟩
  size := hsize
  gives j := by
    by_cases hj : j = i
    · subst hj
      simpa using hp
    · simpa [hj] using h.gives j

theorem conserved_step (hall : all.length ≤ maxPoolSize) (h : Conserved all P) {i : ι} {o : PoolOp}
    {k : o.Res → Pooled α} {c : PoolChoice} {r : o.Res} {s : DbPool × (ι → Option ℕ)}
    (next : P.progs i = .op o k) (exec : (dbPool ι).exec o i P.state c = some (r,s)) :
    Conserved all ⟨update P.progs i (k r),s⟩ := by
  obtain ⟨conns,hstack,hshare⟩ := h.shares
  have hb := h.gives i
  rw [next] at hb
  obtain ⟨hx,hheld⟩ := recorded_exec exec
  obtain ⟨pool,held⟩ := s
  dsimp only at hx hheld
  cases o with
  | getConnection =>
    subst hheld
    obtain ⟨hnone,hk⟩ := hb
    cases c <;> simp only [poolExec,reduceCtorEq] at hx
    rcases List.eq_nil_or_concat conns with rfl | ⟨conns,top,rfl⟩
    · rw [stacked_empty hstack] at hx
      cases hx
    · rw [List.concat_eq_append] at hstack hshare
      have hlen := shared_length hshare
      obtain ⟨p',hget,hstack',hsize⟩ := stacked_get hstack (by omega)
      obtain ⟨rfl,rfl⟩ := Prod.mk.inj (Option.some.inj (hget.symm.trans hx))
      exact conserved_moved h hstack' (shared_take hshare hnone) (hsize.trans h.size) (hk top)
  | releaseConnection conn =>
    subst hheld
    obtain ⟨hconn,hsome,hk⟩ := hb
    cases c <;> simp only [poolExec,reduceCtorEq] at hx
    obtain ⟨a,ha⟩ := Option.ne_none_iff_exists'.mp hsome
    have hshare' := shared_give hshare ha
    have hlen := shared_length hshare'
    rw [List.length_append,List.length_singleton] at hlen
    obtain ⟨p',hput,hstack',hsize⟩ := stacked_put hstack (by omega) a
    rw [hconn,ha] at hx
    simp only [DbPool.releaseConnection,hput,Option.map_some,Option.some.injEq,Prod.mk.injEq] at hx
    obtain ⟨-,rfl⟩ := hx
    exact conserved_moved h hstack' hshare' (hsize.trans h.size) hk
  | mysqlQuery conn sql =>
    obtain rfl : held = P.state.2 := hheld.trans (update_eq_self i P.state.2)
    cases c <;> simp only [poolExec,reduceCtorEq,Option.some.injEq,Prod.mk.injEq] at hx
    obtain ⟨-,rfl⟩ := hx
    exact conserved_still h (hb.2.2 r)
  | mysqlError conn =>
    obtain rfl : held = P.state.2 := hheld.trans (update_eq_self i P.state.2)
    cases c <;> simp only [poolExec,reduceCtorEq,Option.some.injEq,Prod.mk.injEq] at hx
    obtain ⟨-,rfl⟩ := hx
    exact conserved_still h (hb.2.2 r)
  | mysqlStoreResult conn =>
    obtain rfl : held = P.state.2 := hheld.trans (update_eq_self i P.state.2)
    cases c <;> simp only [poolExec,reduceCtorEq,Option.some.injEq,Prod.mk.injEq] at hx
    obtain ⟨-,rfl⟩ := hx
    exact conserved_still h (hb.2.2 r)

theorem conserved_run {ok : ι → PoolOp → DbPool × (ι → Option ℕ) → PoolChoice → Prop}
    (hall : all.length ≤ maxPoolSize) {P' : DbThreads ι α} (h : Conserved all P)
    (run : Pool.Run (dbPool ι) ok P P') : Conserved all P' := by
  induction run with
  | refl => exact h
  | step _ next _ exec ih => exact conserved_step hall ih next exec

/-- Only a thread that finds the stack empty waits. -/
theorem conserved_goes (hall : all.length ≤ maxPoolSize) (h : Conserved all P) {i : ι} {o : PoolOp}
    {k : o.Res → Pooled α} (next : P.progs i = .op o k) :
    (o = .getConnection ∧ P.state.1.poolTop = -1) ∨
      ∃ c r s, (dbPool ι).exec o i P.state c = some (r,s) := by
  obtain ⟨conns,hstack,hshare⟩ := h.shares
  have hb := h.gives i
  rw [next] at hb
  cases o with
  | getConnection =>
    rcases List.eq_nil_or_concat conns with rfl | ⟨conns,top,rfl⟩
    · exact .inl ⟨rfl,by rw [hstack.top]; rfl⟩
    · rw [List.concat_eq_append] at hstack hshare
      have hlen := shared_length hshare
      obtain ⟨p',hget,-⟩ := stacked_get hstack (by omega)
      exact .inr ⟨.ok,_,_,congrArg (Option.map _) hget⟩
  | releaseConnection conn =>
    obtain ⟨hconn,hsome,-⟩ := hb
    obtain ⟨a,ha⟩ := Option.ne_none_iff_exists'.mp hsome
    have hlen := shared_length (shared_give hshare ha)
    rw [List.length_append,List.length_singleton] at hlen
    obtain ⟨p',hput,-⟩ := stacked_put hstack (by omega) a
    have hx : poolExec (.releaseConnection conn) i P.state.1 .ok = some ((),p') := by
      rw [hconn,ha]
      exact congrArg (Option.map _) hput
    exact .inr ⟨.ok,_,_,congrArg (Option.map _) hx⟩
  | mysqlQuery conn sql => exact .inr ⟨.code 0,_,_,rfl⟩
  | mysqlError conn => exact .inr ⟨.message [],_,_,rfl⟩
  | mysqlStoreResult conn => exact .inr ⟨.result none,_,_,rfl⟩

end Runs

section Conservation

variable {ι α : Type} [DecidableEq ι]

/-- What is asked of the pool and its threads, `p` being the pool they start with. -/
structure Conserves (p : DbPool) (P : DbThreads ι α) : Prop where
  single : ∀ i j c, P.state.2 i = some c → P.state.2 j = some c → i = j
  nodup : P.state.1.pooled.Nodup
  apart : ∀ i c, P.state.2 i = some c → some c ∉ P.state.1.pooled
  whole : ∀ c, c ∈ p.pooled ↔ c ∈ P.state.1.pooled ∨ ∃ i, P.state.2 i = c ∧ c ≠ none
  bounds : -1 ≤ P.state.1.poolTop ∧ P.state.1.poolTop ≤ p.gPoolSize-1
  returned : ∀ i, DbThread (P.progs i) → P.state.2 i = none
  inside : ∀ i o k, P.progs i = .op o k → (o = .getConnection ∧ P.state.1.poolTop = -1) ∨
    ∃ c r s, (dbPool ι).exec o i P.state c = some (r,s)

/-- A pool that was set up holds as many connections as it was to hold. -/
theorem initDbPool_stacked {poolSize : ℤ} (hsize : 1 ≤ poolSize) {starts : List Start} {p : DbPool}
    (hfresh : (starts.filterMap Start.handle).Nodup)
    (hinit : initDbPool poolSize starts DbPool.initial = some (0,p)) :
    ∃ all, Stacked p all ∧ all.Nodup ∧ p.gPoolSize = all.length ∧ all.length ≤ maxPoolSize := by
  unfold initDbPool at hinit
  dsimp only at hinit
  generalize hn : (if (maxPoolSize : ℤ) < poolSize then (maxPoolSize : ℤ) else poolSize) = size
    at hinit
  have hrange : 1 ≤ size ∧ size ≤ maxPoolSize := by
    rw [← hn]
    split
    · exact ⟨by decide,Int.le_refl _⟩
    · exact ⟨hsize,by omega⟩
  have hempty : Stacked { DbPool.initial with gPoolSize := size } [] := ⟨rfl,by simp⟩
  obtain ⟨all,hlen,hstarts,hstack,hg⟩ := initLoop_stacked starts _ hempty
    (by rw [List.length_nil]; omega) hinit
  refine ⟨all,hstack,?_,by rw [hg,hlen]; show size = _; omega,by omega⟩
  have hall : all = ((starts.take size.toNat).filterMap Start.handle) := by
    have h := congrArg (List.filterMap id) hstarts
    rw [List.filterMap_map,List.filterMap_map] at h
    simpa using h.symm
  rw [hall]
  exact (List.take_sublist _ starts).filterMap Start.handle |>.nodup hfresh

theorem conserves {p : DbPool} {all : List ℕ} (hstack : Stacked p all)
    (hsize : p.gPoolSize = all.length) (hall : all.length ≤ maxPoolSize) {P : DbThreads ι α}
    (h : Conserved all P) : Conserves p P := by
  obtain ⟨conns,hs,hshare⟩ := h.shares
  have hlen := shared_length hshare
  have htop := hs.top
  have hpooled := stacked_pooled hs
  refine ⟨hshare.holder,?_,fun i c hc => ?_,fun c => ?_,⟨by omega,by omega⟩,fun i hi => ?_,
    fun i o k hk => conserved_goes hall h hk⟩
  · rw [hpooled]
    exact hshare.single.map (Option.some_injective ℕ)
  · rw [hpooled]
    simpa using hshare.apart i c hc
  · rw [hpooled,stacked_pooled hstack]
    cases c with
    | none => simp
    | some c => simpa using hshare.whole c
  · exact thread_free hi (h.gives i)

/-- Whatever threads do with the two functions on a pool that was set up, no
connection gets lost or has two holders, and the stack stays inside its array. -/
theorem connections_conserved {poolSize : ℤ} (hsize : 1 ≤ poolSize) {starts : List Start}
    (hfresh : (starts.filterMap Start.handle).Nodup) {p : DbPool}
    (hinit : initDbPool poolSize starts DbPool.initial = some (0,p)) {progs : ι → Pooled α}
    (hthreads : ∀ i, DbThread (progs i)) {P : DbThreads ι α}
    (run : Pool.Run (dbPool ι) (fun _ _ _ _ => True) ⟨progs,(p,fun _ => none)⟩ P) :
    Conserves p P := by
  obtain ⟨all,hstack,hnodup,hg,hall⟩ := initDbPool_stacked hsize hfresh hinit
  refine conserves hstack hg hall (conserved_run hall ?_ run)
  exact ⟨⟨all,hstack,shared_start hnodup⟩,hg,fun i => thread_givesBack (hthreads i)⟩

/-- One connection and two threads: the first fails, and the second goes on with it. -/
theorem failed_update_conserves : ∃ (p : DbPool) (P : DbThreads Bool Unit),
    initDbPool 1 [⟨some 5,true⟩] DbPool.initial = some (0,p) ∧ P.state.2 true = none ∧
      P.state.2 false = some 5 ∧ Conserves p P := by
  let progs : Bool → Pooled Unit := fun i =>
    if i then dbExecuteUpdate "DELETE FROM files WHERE id=1".toList >>= fun _ => .ret ()
    else dbExecuteQuery "SELECT id FROM files".toList >>= fun _ => .ret ()
  have hthreads : ∀ i, DbThread (progs i)
    | true => .update _ _ fun _ => .done ()
    | false => .query _ _ fun _ => .done ()
  have hinit : initDbPool 1 [⟨some 5,true⟩] DbPool.initial =
      some (0,⟨update (fun _ => none) 0 (some 5),0,1⟩) := rfl
  have run : Pool.Run (dbPool Bool) (fun _ _ _ _ => true = true)
      ⟨progs,(⟨update (fun _ => none) 0 (some 5),0,1⟩,fun _ => none)⟩ _ :=
    Pool.replay_run [(true,.ok),(true,.code 1),(true,.message []),(true,.ok),(false,.ok)] rfl
  exact ⟨_,_,hinit,rfl,rfl,connections_conserved (by decide) (by decide) hinit hthreads
    (Pool.run_mono (fun _ _ _ _ _ => trivial) run)⟩

end Conservation

end WindCloud
