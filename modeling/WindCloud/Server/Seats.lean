import WindCloud.Server.Commands
import WindCloud.Server.Counts
import WindCloud.Server.TransferUsage

/-!
# The directory a session is in

A session remembers the path and the number of its directory. The row behind
them is found by `cd`; commands of any session, and transfers that run
meanwhile, leave it there, except an `rmdir` of an empty directory.
-/

set_option autoImplicit false

namespace WindCloud
open CString Effect Function Runs

/-- A session with a user is at the root, or in a directory of the user. -/
def Seated (db : Db) (ctx : ClientContext) : Prop :=
  ctx.userId ≠ -1 → (ctx.currentPath = "/".toList ∧ ctx.currentDirId = 0) ∨
    ∃ r ∈ db.paths, r.id = ctx.currentDirId ∧ r.userId = ctx.userId ∧ r.type = 1 ∧
      r.path = ctx.currentPath

/-- What the threads besides `i` may do while it serves a command. -/
def besides {ι : Type} [DecidableEq ι] (i j : ι) (o : Op) : Bool :=
  decide (j ≠ i) && o.transferring

/-- The server in which transfers go on between the operations of a command. -/
abbrev busyServer (ι : Type) [DecidableEq ι] (lib : Library) (i : ι) :
    Machine Op Op.Res ι (World ι) (List (ι × Op × Choice) × Choice) :=
  (server ι lib).among (besides i)

section Rows

variable {db : Db}

theorem exec_keeps_path {t : Statement} (ht : t.prunes = false) (db : Db) {r : PathRow}
    (hr : r ∈ db.paths) : r ∈ (t.exec db).2.paths := by
  by_cases hread : t.reads = true
  · rw [Statement.exec_reads hread]
    exact hr
  cases t <;> simp only [Statement.reads,not_true] at hread <;> simp only [Statement.exec]
  case insertUser => split <;> exact hr
  case createNode =>
    split
    · exact hr
    · exact List.mem_append_left _ hr
  case createFileNode =>
    split
    · exact hr
    · exact List.mem_append_left _ hr
  case deleteNode => cases ht
  case insertFile =>
    split
    · exact hr
    · split <;> exact hr
  case addRefCount => exact hr
  case subRefCount => exact hr
  case deleteFile => exact hr
  case upsertSource =>
    rw [putSource_paths]
    exact hr
  case deleteSources => exact hr

theorem exec_transfers {t : Statement} (ht : t.transfers = true) (db : Db) :
    (∀ r ∈ (t.exec db).2.paths, r ∈ db.paths ∨ r.type = 0) ∧
      (t.exec db).2.users = db.users := by
  by_cases hread : t.reads = true
  · rw [Statement.exec_reads hread]
    exact ⟨fun r hr => .inl hr,rfl⟩
  cases t <;> simp only [Statement.reads,not_true] at hread <;>
    simp only [Statement.transfers,Statement.enters,Bool.false_eq_true] at ht <;>
    simp only [Statement.exec]
  case createFileNode =>
    split
    · exact ⟨fun r hr => .inl hr,rfl⟩
    · refine ⟨fun r hr => ?_,rfl⟩
      rcases List.mem_append.mp hr with hr | hr
      · exact .inl hr
      · obtain rfl := List.mem_singleton.mp hr
        exact .inr rfl
  case insertFile =>
    split
    · exact ⟨fun r hr => .inl hr,rfl⟩
    · split <;> exact ⟨fun r hr => .inl hr,rfl⟩
  case addRefCount => exact ⟨fun r hr => .inl hr,rfl⟩
  case upsertSource =>
    unfold Db.putSource
    split <;> exact ⟨fun r hr => .inl hr,rfl⟩

end Rows

section Worlds

variable {ι : Type} [DecidableEq ι] {lib : Library} {i j : ι} {w v w' : World ι}

structure NodesKept (w w' : World ι) : Prop where
  rows : ∀ r ∈ w.db.paths, r ∈ w'.db.paths
  keyed : w.db.Keyed → w'.db.Keyed

structure Aside (w v : World ι) : Prop where
  kept : NodesKept w v
  fresh : ∀ r ∈ v.db.paths, r ∈ w.db.paths ∨ r.type = 0
  users : v.db.users = w.db.users

omit [DecidableEq ι] in
theorem nodesKept_refl (w : World ι) : NodesKept w w := ⟨fun _ hr => hr,id⟩

omit [DecidableEq ι] in
theorem nodesKept_trans (h : NodesKept w v) (h' : NodesKept v w') : NodesKept w w' :=
  ⟨fun r hr => h'.rows r (h.rows r hr),fun hk => h'.keyed (h.keyed hk)⟩

theorem execute_keyed {o : Op} {r : o.Res} {c : Choice} (h : execute lib o i w c = some (r,w'))
    (hk : w.db.Keyed) : w'.db.Keyed := by
  by_cases hs : o.isSql = false
  · rw [execute_db hs h]
    exact hk
  cases o <;> simp only [Op.isSql,not_true] at hs
  rename_i t
  rcases execute_sql h with ⟨_,db,he,rfl⟩ | ⟨_,_,rfl⟩
  · have hthis := keyed_exec hk t
    rw [he] at hthis
    exact hthis
  · exact hk

namespace Op

def unpruning : Op → Bool
  | .sql t => !t.prunes
  | _ => true

end Op

theorem execute_nodesKept {o : Op} {r : o.Res} {c : Choice} (ho : o.unpruning = true)
    (h : execute lib o i w c = some (r,w')) : NodesKept w w' := by
  refine ⟨?_,execute_keyed h⟩
  by_cases hs : o.isSql = false
  · rw [execute_db hs h]
    exact fun r hr => hr
  cases o <;> simp only [Op.isSql,not_true] at hs
  rename_i t
  rcases execute_sql h with ⟨_,db,he,rfl⟩ | ⟨_,_,rfl⟩
  · intro r hr
    have hthis := exec_keeps_path (t := t) (by simpa [Op.unpruning] using ho) w.db hr
    rw [he] at hthis
    exact hthis
  · exact fun r hr => hr

theorem execute_aside {o : Op} {r : o.Res} {c : Choice} (ho : o.transferring = true)
    (h : execute lib o j w c = some (r,v)) : Aside w v := by
  have hkept : o.unpruning = true := by
    cases o with
    | sql t => cases t <;> first | rfl | cases ho
    | _ => rfl
  have hrows : (∀ r ∈ v.db.paths, r ∈ w.db.paths ∨ r.type = 0) ∧ v.db.users = w.db.users := by
    by_cases hs : o.isSql = false
    · rw [execute_db hs h]
      exact ⟨fun r hr => .inl hr,rfl⟩
    cases o <;> simp only [Op.isSql,not_true] at hs
    rename_i t
    rcases execute_sql h with ⟨_,db,he,rfl⟩ | ⟨_,_,rfl⟩
    · have hthis := exec_transfers (t := t) ho w.db
      rw [he] at hthis
      exact hthis
    · exact ⟨fun r hr => .inl hr,rfl⟩
  exact ⟨execute_nodesKept hkept h,hrows.1,hrows.2⟩

theorem others_aside {acts : List (ι × Op × Choice)}
    (h : (server ι lib).others (besides i) acts w = some v) : Aside w v := by
  refine Machine.others_relation (R := Aside) ?_ ?_ ?_ h
  · exact fun w => ⟨nodesKept_refl w,fun r hr => .inl hr,rfl⟩
  · intro s t u h h'
    refine ⟨nodesKept_trans h.kept h'.kept,fun r hr => ?_,h'.users.trans h.users⟩
    rcases h'.fresh r hr with hr | ht
    · exact h.fresh r hr
    · exact .inr ht
  · intro j o s c r s' hmay hx
    exact execute_aside (Bool.and_eq_true_iff.mp hmay).2 hx

end Worlds

section Rules

variable {ι : Type} [DecidableEq ι] {lib : Library} {i : ι} {α β : Type} {w : World ι}

/-- Weakest precondition of what the thread of the sessions does while transfers
go on. -/
abbrev Along (lib : Library) (i : ι) (p : Server α) (Q : α → World ι → Prop) (w : World ι) : Prop :=
  (busyServer ι lib i).wlp (fun _ _ _ => True) i p Q w

theorem along_bind {p : Server α} {f : α → Server β} {Q : β → World ι → Prop}
    (h : Along lib i p (fun a w' => Along lib i (f a) Q w') w) : Along lib i (p >>= f) Q w :=
  (Machine.wlp_bind p f Q w).mpr h

theorem along_op {o : Op} {f : o.Res → Server β} {Q : β → World ι → Prop}
    (h : ∀ v c r w', Aside w v → execute lib o i v c = some (r,w') → Along lib i (f r) Q w') :
    Along lib i (perform o >>= f) Q w := by
  intro c r w' _ hx
  obtain ⟨v,hv,hx⟩ := Machine.among_exec hx
  exact h v c.2 r w' (others_aside hv) hx

theorem along_kept {p : Server α} {Q : α → World ι → Prop}
    (hp : p.Uses fun o => o.unpruning = true) (hQ : ∀ a w', NodesKept w w' → Q a w') :
    Along lib i p Q w := by
  induction p generalizing w with
  | ret a => exact hQ a w (nodesKept_refl w)
  | op o k ih =>
    intro c r w₁ _ hx
    obtain ⟨v,hv,hx⟩ := Machine.among_exec hx
    have h₁ := nodesKept_trans (others_aside hv).kept (execute_nodesKept hp.1 hx)
    exact ih r (hp.2 r) fun a w' h' => hQ a w' (nodesKept_trans h₁ h')

theorem along_before {p : Server α} {f : α → Server β} {Q : β → World ι → Prop}
    (hp : p.Uses fun o => o.unpruning = true)
    (hf : ∀ a w', NodesKept w w' → Along lib i (f a) Q w') : Along lib i (p >>= f) Q w :=
  along_bind (along_kept hp hf)

theorem along_reply {msg : Text} {a : α} {Q : α → World ι → Prop} (h : ∀ w', NodesKept w w' → Q a w') :
    Along lib i (sendMsg msg >>= fun _ => pure a) Q w :=
  along_before ⟨rfl,fun _ => trivial⟩ fun _ => h

/-- The node that is found was there before, or a transfer has just entered it
as a file. -/
theorem along_getNodeByPath {userId : ℤ} {path : Text} {f : Option (ℕ × ℕ) → Server β}
    {Q : β → World ι → Prop}
    (h : ∀ r w', NodesKept w w' → (∀ x ∈ w'.db.paths, x ∈ w.db.paths ∨ x.type = 0) →
      (∀ id type, r = some (id,type) → w'.db.lookup userId path = some (id,type)) →
      Along lib i (f r) Q w') :
    Along lib i (daoGetNodeByPath userId path >>= f) Q w := by
  unfold daoGetNodeByPath
  split
  · rename_i hroot
    refine h _ w (nodesKept_refl w) (fun x hx => .inl hx) fun id type he => ?_
    rw [Db.lookup,if_pos hroot]
    exact he
  · rename_i hroot
    refine along_op fun v c r w' hv hx => ?_
    have hdb : w'.db = v.db := by
      rcases execute_sql hx with ⟨_,db,he,rfl⟩ | ⟨_,_,rfl⟩
      · exact (congrArg Prod.snd he).symm
      · rfl
    refine h r w' ?_ ?_ ?_
    · exact nodesKept_trans hv.kept (execute_nodesKept rfl hx)
    · rw [hdb]
      exact hv.fresh
    · intro id type hr
      rw [Db.lookup,if_neg hroot,hdb]
      rcases execute_sql hx with ⟨_,db,he,rfl⟩ | ⟨_,hfail,rfl⟩
      · exact (congrArg Prod.fst he).trans hr
      · rw [hfail] at hr
        cases hr

end Rules

end WindCloud
