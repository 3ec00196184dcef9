import WindCloud.Lib.Rows
import WindCloud.Server.Tables

/-!
# Keys of the tables

Row numbers, user names, hashes and the paths of one user are unique in every
state the statements lead to from empty tables.
-/

set_option autoImplicit false

namespace WindCloud
open CString Rows

/-- The keys of the four tables, and the width of the column of hashes. -/
structure Db.Keyed (db : Db) : Prop where
  userIds : Numbered (·.id) db.nextUser db.users
  usernames : Unique (·.username) db.users
  fileIds : Numbered (·.id) db.nextFile db.files
  hashes : Unique (·.sha256sum) db.files
  cells : ∀ r ∈ db.files, r.sha256sum.length = 32 ∧ ∀ b ∈ r.sha256sum, b < 256
  pathIds : Numbered (·.id) db.nextPath db.paths
  places : Unique (fun r => (r.userId,r.path)) db.paths

theorem empty_keyed : Db.empty.Keyed where
  userIds := numbered_nil
  usernames := unique_nil _
  fileIds := numbered_nil
  hashes := unique_nil _
  cells := by simp [Db.empty]
  pathIds := numbered_nil
  places := unique_nil _

section Tables

variable {db : Db}

theorem keyed_addUser (h : db.Keyed) {username passwordHash salt : Text}
    (hn : ∀ r ∈ db.users, r.username ≠ username) : (db.addUser username passwordHash salt).Keyed :=
  { h with
    userIds := numbered_append h.userIds rfl
    usernames := unique_append h.usernames hn }

theorem keyed_addPath (h : db.Keyed) {userId : ℤ} {path : Text} {fileId : Option ℕ} {parentId : ℕ}
    {fileName : Text} {type : ℕ} (hn : db.nodeAt userId path = none) :
    (db.addPath userId path fileId parentId fileName type).Keyed :=
  { h with
    pathIds := numbered_append h.pathIds rfl
    places := unique_append h.places fun r hr he =>
      nodeAt_none.mp hn r hr (Prod.mk.inj he) }

theorem keyed_dropPath (h : db.Keyed) (userId : ℤ) (id : ℕ) : (db.dropPath userId id).Keyed :=
  { h with
    pathIds := numbered_filter _ h.pathIds
    places := unique_filter _ h.places }

theorem keyed_addFile (h : db.Keyed) {bs : List ℕ} {size : ℤ} (hn : db.fileOf bs = none)
    (hb : bs.length = 32 ∧ ∀ b ∈ bs, b < 256) : (db.addFile bs size).Keyed :=
  { h with
    fileIds := numbered_append h.fileIds rfl
    hashes := unique_append h.hashes (fileOf_none.mp hn)
    cells := by
      intro r hr
      rcases List.mem_append.mp hr with hr | hr
      · exact h.cells r hr
      · obtain rfl := List.mem_singleton.mp hr
        exact hb }

theorem keyed_count (h : db.Keyed) {f : FileRow → FileRow}
    (hf : ∀ r, (f r).id = r.id ∧ (f r).sha256sum = r.sha256sum) :
    ({ db with files := db.files.map f } : Db).Keyed :=
  { h with
    fileIds := numbered_map (fun r => (hf r).1) h.fileIds
    hashes := unique_map (fun r => (hf r).2) h.hashes
    cells := by
      intro r hr
      obtain ⟨x,hx,rfl⟩ := List.mem_map.mp hr
      rw [(hf x).2]
      exact h.cells x hx }

theorem keyed_addRef (h : db.Keyed) (id : ℕ) : (db.addRef id).Keyed :=
  keyed_count h fun r => by
    split <;> exact ⟨rfl,rfl⟩

theorem keyed_subRef (h : db.Keyed) (id : ℕ) : (db.subRef id).Keyed :=
  keyed_count h fun r => by
    split <;> exact ⟨rfl,rfl⟩

theorem keyed_dropFile (h : db.Keyed) (id : ℕ) : (db.dropFile id).Keyed :=
  { h with
    fileIds := numbered_filter _ h.fileIds
    hashes := unique_filter _ h.hashes
    cells := fun r hr => h.cells r (List.mem_of_mem_filter hr) }

theorem keyed_putSource (h : db.Keyed) (id : ℕ) (ip port : Text) : (db.putSource id ip port).Keyed := by
  unfold Db.putSource
  split <;> exact { h with }

/-- Every statement keeps the keys. -/
theorem keyed_exec (h : db.Keyed) (s : Statement) : (s.exec db).2.Keyed := by
  by_cases hr : s.reads = true
  · rw [Statement.exec_reads hr]
    exact h
  cases s <;> simp only [Statement.reads,not_true] at hr
  case insertUser username passwordHash salt =>
    simp only [Statement.exec]
    split
    · exact h
    · rename_i hn
      exact keyed_addUser h (by simpa using hn)
  case createNode userId fullPath parentId fileName type =>
    simp only [Statement.exec]
    split
    · exact h
    · rename_i hn
      exact keyed_addPath h (by simpa using hn)
  case createFileNode userId fullPath parentId fileName fileId =>
    simp only [Statement.exec]
    split
    · exact h
    · rename_i hn
      exact keyed_addPath h (by simpa using hn)
  case deleteNode userId nodeId => exact keyed_dropPath h userId nodeId
  case insertFile sha256sum size =>
    simp only [Statement.exec]
    split
    · exact h
    · rename_i bs hb
      split
      · exact h
      · rename_i hn
        obtain ⟨hl,hf⟩ := not_or.mp hn
        refine keyed_addFile h (by simpa using hf) ⟨?_,?_⟩
        · rw [List.length_append,List.length_replicate]
          omega
        · intro b hm
          rcases List.mem_append.mp hm with hm | hm
          · exact Hex.unhex_lt hb b hm
          · obtain rfl := List.eq_of_mem_replicate hm
            omega
  case addRefCount fileId => exact keyed_addRef h fileId
  case subRefCount fileId => exact keyed_subRef h fileId
  case deleteFile fileId => exact keyed_dropFile h fileId
  case upsertSource fileId ip port => exact keyed_putSource h fileId ip port
  case deleteSources fileId => exact { h with }

end Tables

section Lookups

variable {db : Db}

theorem fileWithId_mem (h : db.Keyed) {r : FileRow} (hr : r ∈ db.files) :
    db.fileWithId r.id = some r :=
  unique_find h.fileIds.unique hr (by simp)

theorem fileOf_mem (h : db.Keyed) {r : FileRow} (hr : r ∈ db.files) :
    db.fileOf r.sha256sum = some r :=
  unique_find h.hashes hr (by simp)

theorem nodeAt_mem (h : db.Keyed) {r : PathRow} (hr : r ∈ db.paths) :
    db.nodeAt r.userId r.path = some r :=
  unique_find h.places hr (by simp)

end Lookups

section Identity

variable {db : Db}

theorem exec_nextFile (s : Statement) (db : Db) : db.nextFile ≤ (s.exec db).2.nextFile := by
  by_cases hr : s.reads = true
  · exact Nat.le_of_eq (congrArg Db.nextFile (Statement.exec_reads hr db)).symm
  cases s <;> simp only [Statement.reads,not_true] at hr <;> simp only [Statement.exec]
  case insertUser => split <;> exact Nat.le_refl _
  case createNode => split <;> exact Nat.le_refl _
  case createFileNode => split <;> exact Nat.le_refl _
  case insertFile =>
    split
    · exact Nat.le_refl _
    · split
      · exact Nat.le_refl _
      · exact Nat.le_succ _
  case upsertSource =>
    unfold Db.putSource
    split <;> exact Nat.le_refl _
  all_goals exact Nat.le_refl _

theorem exec_files (s : Statement) (db : Db) :
    ∀ r ∈ (s.exec db).2.files,
      (∃ r' ∈ db.files, r'.id = r.id ∧ r'.sha256sum = r.sha256sum) ∨ db.nextFile ≤ r.id := by
  by_cases hr : s.reads = true
  · rw [Statement.exec_reads hr]
    exact fun r hr => .inl ⟨r,hr,rfl,rfl⟩
  have hcount : ∀ f : FileRow → FileRow,
      (∀ r, (f r).id = r.id ∧ (f r).sha256sum = r.sha256sum) → ∀ r ∈ db.files.map f,
        (∃ r' ∈ db.files, r'.id = r.id ∧ r'.sha256sum = r.sha256sum) ∨ db.nextFile ≤ r.id := by
    intro f hf r hr
    obtain ⟨x,hx,rfl⟩ := List.mem_map.mp hr
    exact .inl ⟨x,hx,(hf x).1.symm,(hf x).2.symm⟩
  have hsame : ∀ r ∈ db.files,
      (∃ r' ∈ db.files, r'.id = r.id ∧ r'.sha256sum = r.sha256sum) ∨ db.nextFile ≤ r.id :=
    fun r hr => .inl ⟨r,hr,rfl,rfl⟩
  cases s <;> simp only [Statement.reads,not_true] at hr <;> simp only [Statement.exec]
  case insertUser => split <;> exact hsame
  case createNode => split <;> exact hsame
  case createFileNode => split <;> exact hsame
  case deleteNode => exact hsame
  case insertFile =>
    split
    · exact hsame
    · split
      · exact hsame
      · intro r hr
        rcases List.mem_append.mp hr with hr | hr
        · exact hsame r hr
        · obtain rfl := List.mem_singleton.mp hr
          exact .inr (Nat.le_refl _)
  case addRefCount => exact hcount _ fun r => by split <;> exact ⟨rfl,rfl⟩
  case subRefCount => exact hcount _ fun r => by split <;> exact ⟨rfl,rfl⟩
  case deleteFile => exact fun r hr => hsame r (List.mem_of_mem_filter hr)
  case upsertSource => rw [putSource_files]; exact hsame
  case deleteSources => exact hsame

theorem exec_keeps_file {s : Statement} (hs : ∀ id, s ≠ .deleteFile id) (db : Db) {r : FileRow}
    (hr : r ∈ db.files) :
    ∃ r' ∈ (s.exec db).2.files, r'.id = r.id ∧ r'.sha256sum = r.sha256sum := by
  have hcount : ∀ f : FileRow → FileRow,
      (∀ r, (f r).id = r.id ∧ (f r).sha256sum = r.sha256sum) →
        ∃ r' ∈ db.files.map f, r'.id = r.id ∧ r'.sha256sum = r.sha256sum :=
    fun f hf => ⟨f r,List.mem_map_of_mem hr,hf r⟩
  have hsame : ∃ r' ∈ db.files, r'.id = r.id ∧ r'.sha256sum = r.sha256sum := ⟨r,hr,rfl,rfl⟩
  by_cases hread : s.reads = true
  · rw [Statement.exec_reads hread]
    exact hsame
  cases s <;> simp only [Statement.reads,not_true] at hread <;> simp only [Statement.exec]
  case insertUser => split <;> exact hsame
  case createNode => split <;> exact hsame
  case createFileNode => split <;> exact hsame
  case deleteNode => exact hsame
  case insertFile =>
    split
    · exact hsame
    · split
      · exact hsame
      · exact ⟨r,List.mem_append_left _ hr,rfl,rfl⟩
  case addRefCount => exact hcount _ fun r => by split <;> exact ⟨rfl,rfl⟩
  case subRefCount => exact hcount _ fun r => by split <;> exact ⟨rfl,rfl⟩
  case deleteFile id => exact absurd rfl (hs id)
  case upsertSource => rw [putSource_files]; exact hsame
  case deleteSources => exact hsame

/-- The tables after further statements. -/
def Db.after (db : Db) (ss : List Statement) : Db := ss.foldl (fun d s => (s.exec d).2) db

theorem after_files (ss : List Statement) (db : Db) :
    ∀ r ∈ (db.after ss).files,
      (∃ r' ∈ db.files, r'.id = r.id ∧ r'.sha256sum = r.sha256sum) ∨ db.nextFile ≤ r.id := by
  induction ss generalizing db with
  | nil => exact fun r hr => .inl ⟨r,hr,rfl,rfl⟩
  | cons s ss ih =>
    intro r hr
    rcases ih _ r hr with ⟨r₁,h₁,hid,hsum⟩ | hn
    · rcases exec_files s db r₁ h₁ with ⟨r₀,h₀,hid₀,hsum₀⟩ | hn
      · exact .inl ⟨r₀,h₀,hid₀.trans hid,hsum₀.trans hsum⟩
      · exact .inr (hid ▸ hn)
    · exact .inr (Nat.le_trans (exec_nextFile s db) hn)

/-- A row keeps its hash: its number is given to no other content. -/
theorem after_hash (h : db.Keyed) {r r' : FileRow} (hr : r ∈ db.files) {ss : List Statement}
    (hr' : r' ∈ (db.after ss).files) (hid : r'.id = r.id) : r'.sha256sum = r.sha256sum := by
  rcases after_files ss db r' hr' with ⟨x,hx,hxid,hxsum⟩ | hn
  · obtain rfl := unique_inj h.fileIds.unique hx hr (hxid.trans hid)
    exact hxsum.symm
  · have hlt := h.fileIds.below r hr
    omega

end Identity

end WindCloud
