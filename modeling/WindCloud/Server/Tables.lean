import WindCloud.Server.Schema

/-!
# What each statement does to the tables

Reads leave the tables alone; an insertion into `files` for a well-formed hash
adds one row carrying that hash, or is rejected because there is one.
-/

set_option autoImplicit false

namespace WindCloud
open CString Hex

namespace Statement

def reads : Statement → Bool
  | userByName _ | nodeByPath _ _ | listDir _ _ | fileInfoByPath _ _ | anyChild _ _
  | fileBySha256 _ | refCount _ | fileInfoById _ | listSources _ => true
  | _ => false

theorem exec_reads {s : Statement} (hs : s.reads = true) (db : Db) : (s.exec db).2 = db := by
  cases s <;> simp only [reads,Bool.false_eq_true] at hs <;> try rfl
  simp only [exec]
  split <;> rfl

theorem exec_fileBySha256 {h : Text} (hh : IsHash h) (db : Db) :
    ∃ bs, unhex h = some bs ∧ hexLower bs = h ∧
      (fileBySha256 h).exec db = ((db.fileOf bs).map fun r => (r.id,r.size),db) := by
  obtain ⟨bs,hb,_,hl⟩ := unhex_hash hh
  exact ⟨bs,hb,hl,by simp [exec,hb]⟩

theorem exec_insertFile {h : Text} (hh : IsHash h) (db : Db) (size : ℤ) :
    ∃ bs, unhex h = some bs ∧ hexLower bs = h ∧
      (insertFile h size).exec db =
        if (db.fileOf bs).isSome then (false,db) else (true,db.addFile bs size) := by
  obtain ⟨bs,hb,hlen,hl⟩ := unhex_hash hh
  exact ⟨bs,hb,hl,by simp [exec,hb,hlen]⟩

/-- Statements which change no hash in `files` and remove no row there. -/
def keepsHashes : Statement → Bool
  | insertFile _ _ | deleteFile _ => false
  | _ => true

theorem exec_keepsHashes {s : Statement} (hs : s.keepsHashes = true) (db : Db) :
    (s.exec db).2.files.map (·.sha256sum) = db.files.map (·.sha256sum) := by
  by_cases hr : s.reads = true
  · rw [exec_reads hr]
  cases s <;> simp only [reads,keepsHashes,Bool.false_eq_true,not_true,not_false_iff] at hr hs
  case insertUser =>
    simp only [exec]
    split <;> rfl
  case createNode =>
    simp only [exec]
    split <;> rfl
  case createFileNode =>
    simp only [exec]
    split <;> rfl
  case deleteNode => rfl
  case addRefCount =>
    simp only [exec,Db.addRef,List.map_map]
    refine List.map_congr_left fun r _ => ?_
    simp only [Function.comp_apply]
    split <;> rfl
  case subRefCount =>
    simp only [exec,Db.subRef,List.map_map]
    refine List.map_congr_left fun r _ => ?_
    simp only [Function.comp_apply]
    split <;> rfl
  case upsertSource =>
    simp only [exec,Db.putSource]
    split <;> rfl
  case deleteSources => rfl

end Statement

theorem fileOf_some {db : Db} {bs : List ℕ} {r : FileRow} (h : db.fileOf bs = some r) :
    r ∈ db.files ∧ r.sha256sum = bs :=
  ⟨List.mem_of_find?_eq_some h,by simpa using List.find?_some h⟩

theorem fileOf_none {db : Db} {bs : List ℕ} :
    db.fileOf bs = none ↔ ∀ r ∈ db.files, r.sha256sum ≠ bs := by
  simp [Db.fileOf]

theorem fileWithId_some {db : Db} {id : ℕ} {r : FileRow} (h : db.fileWithId id = some r) :
    r ∈ db.files ∧ r.id = id :=
  ⟨List.mem_of_find?_eq_some h,by simpa using List.find?_some h⟩

theorem nodeAt_some {db : Db} {userId : ℤ} {path : Text} {r : PathRow}
    (h : db.nodeAt userId path = some r) : r ∈ db.paths ∧ r.userId = userId ∧ r.path = path := by
  have hp := List.find?_some h
  exact ⟨List.mem_of_find?_eq_some h,by simpa using hp⟩

theorem nodeAt_none {db : Db} {userId : ℤ} {path : Text} :
    db.nodeAt userId path = none ↔ ∀ r ∈ db.paths, ¬ (r.userId = userId ∧ r.path = path) := by
  simp [Db.nodeAt]

section Fields

variable (db : Db)

@[simp] theorem addPath_files (userId : ℤ) (path : Text) (fileId : Option ℕ) (parentId : ℕ)
    (fileName : Text) (type : ℕ) :
    (db.addPath userId path fileId parentId fileName type).files = db.files := rfl

@[simp] theorem addPath_paths (userId : ℤ) (path : Text) (fileId : Option ℕ) (parentId : ℕ)
    (fileName : Text) (type : ℕ) :
    (db.addPath userId path fileId parentId fileName type).paths =
      db.paths ++ [⟨db.nextPath,userId,path,fileId,parentId,fileName,type⟩] := rfl

@[simp] theorem dropPath_files (userId : ℤ) (id : ℕ) : (db.dropPath userId id).files = db.files :=
  rfl

@[simp] theorem addFile_files (bs : List ℕ) (size : ℤ) :
    (db.addFile bs size).files = db.files ++ [⟨db.nextFile,bs,size,1⟩] := rfl

@[simp] theorem addFile_paths (bs : List ℕ) (size : ℤ) : (db.addFile bs size).paths = db.paths :=
  rfl

@[simp] theorem addRef_paths (id : ℕ) : (db.addRef id).paths = db.paths := rfl

@[simp] theorem subRef_paths (id : ℕ) : (db.subRef id).paths = db.paths := rfl

@[simp] theorem dropFile_paths (id : ℕ) : (db.dropFile id).paths = db.paths := rfl

@[simp] theorem putSource_files (id : ℕ) (ip port : Text) :
    (db.putSource id ip port).files = db.files := by
  unfold Db.putSource
  split <;> rfl

@[simp] theorem putSource_paths (id : ℕ) (ip port : Text) :
    (db.putSource id ip port).paths = db.paths := by
  unfold Db.putSource
  split <;> rfl

@[simp] theorem dropSources_files (id : ℕ) : (db.dropSources id).files = db.files := rfl

@[simp] theorem dropSources_paths (id : ℕ) : (db.dropSources id).paths = db.paths := rfl

end Fields

end WindCloud
