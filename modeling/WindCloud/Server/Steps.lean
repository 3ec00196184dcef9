import WindCloud.Server.FileTransfer

/-!
# What each operation can do

One inversion lemma for each operation that changes the world, and the parts
of the world an operation leaves alone.
-/

set_option autoImplicit false

namespace WindCloud
open CString Effect Function

namespace Op

def isSql : Op → Bool
  | .sql _ => true
  | _ => false

def quiet : Op → Bool
  | .storeDir | .configAddress | .stat _ | .fstat | .mmap _ | .recvAuth | .recvFile | .time
  | .rand _ | .sha256 _ | .jwtDecode _ _ _ _ | .sendfile _ _ | .sendMapped _ _ => true
  | _ => false

/-- Operations that leave tokens, random values, the ticket table and the sent
packets alone. -/
def unticketed : Op → Bool
  | .send _ | .time | .randBytes _ | .jwtEncode _ | .ticketRegister _ _ | .ticketConsume _ _ =>
    false
  | _ => true

/-- Operations on the caller's connection. -/
def network : Op → Bool
  | .recvAuth | .recvFile | .recv _ | .recvMapped _ _ | .send _ | .sendfile _ _
  | .sendMapped _ _ => true
  | _ => false

end Op

section

attribute [local simp] execute

variable {ι : Type} [DecidableEq ι] {lib : Library} {i : ι} {w w' : World ι} {c : Choice}

@[simp] theorem server_exec (o : Op) (i : ι) (w : World ι) (c : Choice) :
    (server ι lib).exec o i w c = execute lib o i w c := rfl

omit [DecidableEq ι] in
@[simp] theorem setNode_db (w : World ι) (n : Node ι) : (w.setNode n).db = w.db := rfl

omit [DecidableEq ι] in
@[simp] theorem setNode_node (w : World ι) (n : Node ι) : (w.setNode n).node = n := rfl

theorem execute_quiet {o : Op} {r : o.Res} (ho : o.quiet = true)
    (h : execute lib o i w c = some (r,w')) : w' = w := by
  cases o <;> simp only [Op.quiet,Bool.false_eq_true] at ho <;> cases c <;>
    simp at h <;> grind

theorem execute_db {o : Op} {r : o.Res} (ho : o.isSql = false)
    (h : execute lib o i w c = some (r,w')) : w'.db = w.db := by
  cases o <;> cases c <;> simp [Op.isSql,World.setNode] at h ho <;>
    (try split at h) <;> (try simp at h) <;> grind

theorem execute_sql {s : Statement} {r : s.Res} (h : execute lib (.sql s) i w c = some (r,w')) :
    (c = .ok ∧ ∃ db, s.exec w.db = (r,db) ∧ w' = { w with db := db }) ∨
      (c = .fault ∧ r = s.failed ∧ w' = w) := by
  cases c with
  | ok =>
    obtain ⟨rfl,rfl⟩ : (s.exec w.db).1 = r ∧ { w with db := (s.exec w.db).2 } = w' := by
      simpa using h
    exact .inl ⟨rfl,_,rfl,rfl⟩
  | fault =>
    obtain ⟨rfl,rfl⟩ : s.failed = r ∧ w = w' := by simpa using h
    exact .inr ⟨rfl,rfl,rfl⟩
  | count n => simp at h
  | value n => simp at h
  | bytes bs => simp at h

theorem execute_storeDir {r : Option Text} (h : execute lib .storeDir i w c = some (r,w')) :
    (r = some w.node.storeDir ∨ r = none) ∧ w' = w := by
  cases c <;> simp at h <;> grind

theorem execute_send {p : Packet} {r : Bool} (h : execute lib (.send p) i w c = some (r,w')) :
    (c = .ok ∧ r = true ∧ w' = w.setNode (w.node.deliver i p)) ∨
      (c = .fault ∧ r = false ∧ w' = w) := by
  cases c <;> simp at h <;> grind

theorem execute_recvFile {r : Option FilePacket}
    (h : execute lib .recvFile i w c = some (r,w')) :
    (r = some (w.node.conn i).hello ∨ r = none) ∧ w' = w := by
  cases c <;> simp at h <;> grind

theorem execute_openUpload {path : Text} {r : Bool}
    (h : execute lib (.openUpload path) i w c = some (r,w')) :
    (r = true ∧ w' = w.setNode
      { w.node with
        store := (w.node.store.openOrCreate path []).2
        desc := update w.node.desc i
          (some ⟨(w.node.store.openOrCreate path []).1,0,false⟩) }) ∨
      (r = false ∧ w' = w) := by
  cases c <;> simp at h <;> grind

theorem execute_fstat {r : Option ℤ} (h : execute lib .fstat i w c = some (r,w')) :
    w' = w ∧ ((∃ d, w.node.desc i = some d ∧ c = .ok ∧
      r = some ((w.node.store.data d.inode).length : ℤ)) ∨ (c = .fault ∧ r = none)) := by
  cases c <;> simp at h <;> grind

theorem execute_stat {path : Text} {r : StatResult}
    (h : execute lib (.stat path) i w c = some (r,w')) :
    w' = w ∧ (r = .failed ∨ (r = .missing ∧ w.node.store.read path = none) ∨
      ∃ f, r = .regular f.length ∧ w.node.store.read path = some f) := by
  cases c <;> simp at h
  case ok =>
    obtain ⟨hr,rfl⟩ := h
    cases hf : w.node.store.read path with
    | none => simp [hf] at hr; simp [← hr]
    | some f => simp [hf] at hr; simp [← hr]
  case fault => grind

theorem execute_ftruncate {size : ℤ} {r : Bool}
    (h : execute lib (.ftruncate size) i w c = some (r,w')) :
    (∃ d, w.node.desc i = some d ∧ c = .ok ∧ 0 ≤ size ∧ r = true ∧
      w' = w.setNode (w.node.resize i d size.toNat)) ∨
    (c = .ok ∧ size < 0 ∧ r = false ∧ w' = w) ∨ (c = .fault ∧ r = false ∧ w' = w) := by
  cases c with
  | ok =>
    cases hd : w.node.desc i with
    | none => simp [hd] at h
    | some d =>
      by_cases hs : 0 ≤ size
      · obtain ⟨rfl,rfl⟩ : true = r ∧ w.setNode (w.node.resize i d size.toNat) = w' := by
          simpa [hd,hs] using h
        exact .inl ⟨d,rfl,rfl,hs,rfl,rfl⟩
      · obtain ⟨rfl,rfl⟩ : false = r ∧ w = w' := by simpa [hd,hs] using h
        exact .inr (.inl ⟨rfl,by omega,rfl,rfl⟩)
  | fault =>
    obtain ⟨rfl,rfl⟩ : false = r ∧ w = w' := by simpa using h
    exact .inr (.inr ⟨rfl,rfl,rfl⟩)
  | count n => simp at h
  | value n => simp at h
  | bytes bs => simp at h

theorem execute_mmap {size : ℤ} {r : Bool} (h : execute lib (.mmap size) i w c = some (r,w')) :
    w' = w ∧ ((c = .ok ∧ r = decide (0 < size)) ∨ (c = .fault ∧ r = false)) := by
  cases c <;> simp at h <;> grind

theorem execute_lseek {pos : ℤ} {r : Bool}
    (h : execute lib (.lseek pos) i w c = some (r,w')) :
    (∃ d, w.node.desc i = some d ∧ c = .ok ∧ 0 ≤ pos ∧ r = true ∧
      w' = w.setNode (w.node.setDesc i (some { d with pos := pos.toNat }))) ∨
    (c = .ok ∧ pos < 0 ∧ r = false ∧ w' = w) ∨ (c = .fault ∧ r = false ∧ w' = w) := by
  cases c with
  | ok =>
    cases hd : w.node.desc i with
    | none => simp [hd] at h
    | some d =>
      by_cases hs : 0 ≤ pos
      · obtain ⟨rfl,rfl⟩ : true = r ∧
            w.setNode (w.node.setDesc i (some { d with pos := pos.toNat })) = w' := by
          simpa [hd,hs] using h
        exact .inl ⟨d,rfl,rfl,hs,rfl,rfl⟩
      · obtain ⟨rfl,rfl⟩ : false = r ∧ w = w' := by simpa [hd,hs] using h
        exact .inr (.inl ⟨rfl,by omega,rfl,rfl⟩)
  | fault =>
    obtain ⟨rfl,rfl⟩ : false = r ∧ w = w' := by simpa using h
    exact .inr (.inr ⟨rfl,rfl,rfl⟩)
  | count n => simp at h
  | value n => simp at h
  | bytes bs => simp at h

theorem execute_write {buf : Content} {r : ℕ}
    (h : execute lib (.write buf) i w c = some (r,w')) :
    (∃ d, w.node.desc i = some d ∧ 0 < r ∧ r ≤ buf.length ∧
      w' = w.setNode (w.node.append i d (buf.take r))) ∨ (c = .fault ∧ r = 0 ∧ w' = w) := by
  cases c with
  | count n =>
    cases hd : w.node.desc i with
    | none => simp [hd] at h
    | some d =>
      by_cases hn : 0 < n ∧ n ≤ buf.length
      · obtain ⟨rfl,rfl⟩ : n = r ∧ w.setNode (w.node.append i d (buf.take n)) = w' := by
          simpa [hd,hn] using h
        exact .inl ⟨d,rfl,hn.1,hn.2,rfl⟩
      · simp [hd,hn] at h
  | fault =>
    obtain ⟨rfl,rfl⟩ : 0 = r ∧ w = w' := by simpa using h
    exact .inr ⟨rfl,rfl,rfl⟩
  | ok => simp at h
  | value n => simp at h
  | bytes bs => simp at h

theorem execute_recv {once : ℤ} {r : Content}
    (h : execute lib (.recv once) i w c = some (r,w')) :
    (∃ n : ℕ, 0 < n ∧ (n : ℤ) ≤ once ∧ n ≤ (w.node.conn i).stream.length ∧
      r = (w.node.conn i).stream.take n ∧ w' = w.setNode (w.node.consume i n)) ∨
    (c = .fault ∧ r = [] ∧ w' = w) := by
  cases c with
  | count n =>
    by_cases hn : 0 < n ∧ (n : ℤ) ≤ once ∧ n ≤ (w.node.conn i).stream.length
    · obtain ⟨rfl,rfl⟩ : (w.node.conn i).stream.take n = r ∧
          w.setNode (w.node.consume i n) = w' := by simpa [hn] using h
      exact .inl ⟨n,hn.1,hn.2.1,hn.2.2,rfl,rfl⟩
    · simp [hn] at h
  | fault =>
    obtain ⟨rfl,rfl⟩ : [] = r ∧ w = w' := by simpa using h
    exact .inr ⟨rfl,rfl,rfl⟩
  | ok => simp at h
  | value n => simp at h
  | bytes bs => simp at h

theorem execute_recvMapped {pos once : ℤ} {r : ℕ}
    (h : execute lib (.recvMapped pos once) i w c = some (r,w')) :
    (∃ d, w.node.desc i = some d ∧ 0 < r ∧ (r : ℤ) ≤ once ∧
      r ≤ (w.node.conn i).stream.length ∧
      w' = w.setNode
        ((w.node.patch d pos.toNat ((w.node.conn i).stream.take r)).consume i r)) ∨
    (c = .fault ∧ r = 0 ∧ w' = w) := by
  cases c with
  | count n =>
    cases hd : w.node.desc i with
    | none => simp [hd] at h
    | some d =>
      by_cases hn : 0 < n ∧ (n : ℤ) ≤ once ∧ n ≤ (w.node.conn i).stream.length
      · obtain ⟨rfl,rfl⟩ : n = r ∧ w.setNode ((w.node.patch d pos.toNat
            ((w.node.conn i).stream.take n)).consume i n) = w' := by
          simpa [hd,hn] using h
        exact .inl ⟨d,rfl,hn.1,hn.2.1,hn.2.2,rfl⟩
      · simp [hd,hn] at h
  | fault =>
    obtain ⟨rfl,rfl⟩ : 0 = r ∧ w = w' := by simpa using h
    exact .inr ⟨rfl,rfl,rfl⟩
  | ok => simp at h
  | value n => simp at h
  | bytes bs => simp at h

theorem execute_openEmpty {path : Text} {r : Bool}
    (h : execute lib (.openEmpty path) i w c = some (r,w')) :
    (r = true ∧ w' = w.setNode
      { w.node with store := (w.node.store.openOrCreate path []).2 }) ∨
      (r = false ∧ w' = w) := by
  cases c <;> simp at h <;> grind

theorem execute_openRead {path : Text} {r : Bool}
    (h : execute lib (.openRead path) i w c = some (r,w')) :
    (∃ n, w.node.store.names path = some n ∧ r = true ∧
      w' = w.setNode (w.node.setDesc i (some ⟨n,0,false⟩))) ∨ (r = false ∧ w' = w) := by
  cases c with
  | ok =>
    cases hn : w.node.store.names path with
    | none =>
      obtain ⟨rfl,rfl⟩ : false = r ∧ w = w' := by simpa [hn] using h
      exact .inr ⟨rfl,rfl⟩
    | some n =>
      obtain ⟨rfl,rfl⟩ : true = r ∧ w.setNode (w.node.setDesc i (some ⟨n,0,false⟩)) = w' := by
        simpa [hn] using h
      exact .inl ⟨n,rfl,rfl,rfl⟩
  | fault =>
    obtain ⟨rfl,rfl⟩ : false = r ∧ w = w' := by simpa using h
    exact .inr ⟨rfl,rfl⟩
  | count n => simp at h
  | value n => simp at h
  | bytes bs => simp at h

theorem execute_sendfile {pos count : ℤ} {r : Content}
    (h : execute lib (.sendfile pos count) i w c = some (r,w')) :
    w' = w ∧ ((c = .fault ∧ r = []) ∨ ∃ d, w.node.desc i = some d ∧ 0 ≤ pos ∧ r ≠ [] ∧ (r.length : ℤ) ≤ count ∧
      pos.toNat+r.length ≤ (w.node.store.data d.inode).length ∧
      r = ((w.node.store.data d.inode).drop pos.toNat).take r.length) := by
  refine ⟨execute_quiet rfl h,?_⟩
  cases c with
  | count n =>
    cases hd : w.node.desc i with
    | none => simp [execute,hd] at h
    | some d =>
      simp only [execute,hd] at h
      split at h
      · rename_i hn
        obtain rfl := (Prod.mk.inj (Option.some.inj h)).1
        have hl : (((w.node.store.data d.inode).drop pos.toNat).take n).length = n := by
          rw [List.length_take,List.length_drop]
          omega
        refine .inr ⟨d,rfl,hn.1,?_,by rw [hl]; exact hn.2.2.1,by rw [hl]; exact hn.2.2.2,by rw [hl]⟩
        exact List.ne_nil_of_length_pos (by rw [hl]; exact hn.2.1)
      · cases h
  | fault =>
    simp only [execute] at h
    exact .inl ⟨rfl,(Prod.mk.inj (Option.some.inj h)).1.symm⟩
  | ok => simp [execute] at h
  | value n => simp [execute] at h
  | bytes bs => simp [execute] at h

theorem execute_sendMapped {pos once : ℤ} {r : Content}
    (h : execute lib (.sendMapped pos once) i w c = some (r,w')) :
    execute lib (.sendfile pos once) i w c = some (r,w') := by
  cases c <;> exact h

theorem execute_unlink {path : Text} {r : Bool}
    (h : execute lib (.unlink path) i w c = some (r,w')) :
    (c = .ok ∧ w' = w.setNode
      { w.node with
        store := w.node.store.unlink path, unlinked := w.node.unlinked ++ [path] }) ∨
      (c = .fault ∧ w' = w) := by
  cases c <;> simp at h <;> grind

theorem execute_close {r : Unit} (h : execute lib .close i w c = some (r,w')) :
    w' = w.setNode (w.node.setDesc i none) := by
  cases c <;> simp at h
  exact h.symm

theorem consume_sent (n : Node ι) (k : ℕ) (j : ι) :
    ((n.consume i k).conn j).sent = (n.conn j).sent := by
  by_cases hj : j = i
  · subst hj
    simp [Node.consume,Node.setConn]
  · simp [Node.consume,Node.setConn,hj]

theorem execute_unticketed {o : Op} {r : o.Res} (ho : o.unticketed = true)
    (h : execute lib o i w c = some (r,w')) :
    w'.minted = w.minted ∧ w'.drawn = w.drawn ∧ w'.node.tickets = w.node.tickets ∧
      ∀ j, (w'.node.conn j).sent = (w.node.conn j).sent := by
  by_cases hq : o.quiet = true
  · rw [execute_quiet hq h]
    exact ⟨rfl,rfl,rfl,fun _ => rfl⟩
  cases o <;> simp only [Op.unticketed,Op.quiet,not_true,Bool.false_eq_true] at ho hq
  case sql s =>
    rcases execute_sql h with ⟨_,db,_,rfl⟩ | ⟨_,_,rfl⟩ <;> exact ⟨rfl,rfl,rfl,fun _ => rfl⟩
  case openUpload path =>
    rcases execute_openUpload h with ⟨_,rfl⟩ | ⟨_,rfl⟩ <;> exact ⟨rfl,rfl,rfl,fun _ => rfl⟩
  case openEmpty path =>
    rcases execute_openEmpty h with ⟨_,rfl⟩ | ⟨_,rfl⟩ <;> exact ⟨rfl,rfl,rfl,fun _ => rfl⟩
  case ftruncate size =>
    rcases execute_ftruncate h with ⟨d,_,_,_,_,rfl⟩ | ⟨_,_,_,rfl⟩ | ⟨_,_,rfl⟩ <;>
      exact ⟨rfl,rfl,rfl,fun _ => rfl⟩
  case lseek pos =>
    rcases execute_lseek h with ⟨d,_,_,_,_,rfl⟩ | ⟨_,_,_,rfl⟩ | ⟨_,_,rfl⟩ <;>
      exact ⟨rfl,rfl,rfl,fun _ => rfl⟩
  case write buf =>
    rcases execute_write h with ⟨d,_,_,_,rfl⟩ | ⟨_,_,rfl⟩ <;> exact ⟨rfl,rfl,rfl,fun _ => rfl⟩
  case recvMapped pos once =>
    rcases execute_recvMapped h with ⟨d,_,_,_,_,rfl⟩ | ⟨_,_,rfl⟩
    · exact ⟨rfl,rfl,rfl,fun j => consume_sent _ _ j⟩
    · exact ⟨rfl,rfl,rfl,fun _ => rfl⟩
  case close =>
    rw [execute_close h]
    exact ⟨rfl,rfl,rfl,fun _ => rfl⟩
  case openRead path =>
    rcases execute_openRead h with ⟨n,_,_,rfl⟩ | ⟨_,rfl⟩ <;> exact ⟨rfl,rfl,rfl,fun _ => rfl⟩
  case unlink path =>
    rcases execute_unlink h with ⟨_,rfl⟩ | ⟨_,rfl⟩ <;> exact ⟨rfl,rfl,rfl,fun _ => rfl⟩
  case recv once =>
    rcases execute_recv h with ⟨n,_,_,_,_,rfl⟩ | ⟨_,_,rfl⟩
    · exact ⟨rfl,rfl,rfl,fun j => consume_sent _ _ j⟩
    · exact ⟨rfl,rfl,rfl,fun _ => rfl⟩
  case overflow => exact r.elim

/-- A thread's open file and its connection are its own. -/
theorem execute_apart {o : Op} {j : ι} {r : o.Res} (hj : j ≠ i)
    (h : execute lib o i w c = some (r,w')) :
    w'.node.desc j = w.node.desc j ∧ w'.node.conn j = w.node.conn j := by
  by_cases hq : o.quiet = true
  · rw [execute_quiet hq h]
    exact ⟨rfl,rfl⟩
  cases o <;> simp only [Op.quiet,not_true,Bool.false_eq_true] at hq
  case sql s =>
    rcases execute_sql h with ⟨_,db,_,rfl⟩ | ⟨_,_,rfl⟩ <;> exact ⟨rfl,rfl⟩
  case openUpload path =>
    rcases execute_openUpload h with ⟨_,rfl⟩ | ⟨_,rfl⟩
    · exact ⟨update_of_ne hj _ _,rfl⟩
    · exact ⟨rfl,rfl⟩
  case openEmpty path =>
    rcases execute_openEmpty h with ⟨_,rfl⟩ | ⟨_,rfl⟩ <;> exact ⟨rfl,rfl⟩
  case openRead path =>
    rcases execute_openRead h with ⟨n,_,_,rfl⟩ | ⟨_,rfl⟩
    · exact ⟨update_of_ne hj _ _,rfl⟩
    · exact ⟨rfl,rfl⟩
  case ftruncate size =>
    rcases execute_ftruncate h with ⟨d,_,_,_,_,rfl⟩ | ⟨_,_,_,rfl⟩ | ⟨_,_,rfl⟩
    · exact ⟨update_of_ne hj _ _,rfl⟩
    · exact ⟨rfl,rfl⟩
    · exact ⟨rfl,rfl⟩
  case lseek pos =>
    rcases execute_lseek h with ⟨d,_,_,_,_,rfl⟩ | ⟨_,_,_,rfl⟩ | ⟨_,_,rfl⟩
    · exact ⟨update_of_ne hj _ _,rfl⟩
    · exact ⟨rfl,rfl⟩
    · exact ⟨rfl,rfl⟩
  case write buf =>
    rcases execute_write h with ⟨d,_,_,_,rfl⟩ | ⟨_,_,rfl⟩
    · exact ⟨update_of_ne hj _ _,rfl⟩
    · exact ⟨rfl,rfl⟩
  case recvMapped pos once =>
    rcases execute_recvMapped h with ⟨d,_,_,_,_,rfl⟩ | ⟨_,_,rfl⟩
    · exact ⟨rfl,update_of_ne hj _ _⟩
    · exact ⟨rfl,rfl⟩
  case close =>
    rw [execute_close h]
    exact ⟨update_of_ne hj _ _,rfl⟩
  case unlink path =>
    rcases execute_unlink h with ⟨_,rfl⟩ | ⟨_,rfl⟩ <;> exact ⟨rfl,rfl⟩
  case recv once =>
    rcases execute_recv h with ⟨n,_,_,_,_,rfl⟩ | ⟨_,_,rfl⟩
    · exact ⟨rfl,update_of_ne hj _ _⟩
    · exact ⟨rfl,rfl⟩
  case send p =>
    rcases execute_send h with ⟨_,_,rfl⟩ | ⟨_,_,rfl⟩
    · exact ⟨rfl,update_of_ne hj _ _⟩
    · exact ⟨rfl,rfl⟩
  case randBytes count => cases c <;> simp at h <;> grind
  case jwtEncode p => cases c <;> simp at h <;> grind
  case ticketRegister now id =>
    cases c <;> simp at h
    obtain ⟨_,rfl⟩ := h
    exact ⟨rfl,rfl⟩
  case ticketConsume now id =>
    cases c <;> simp at h
    obtain ⟨_,rfl⟩ := h
    exact ⟨rfl,rfl⟩
  case overflow => exact r.elim

end

end WindCloud
