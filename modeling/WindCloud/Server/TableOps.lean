import WindCloud.Server.Keys
import WindCloud.Server.UploadSafety
import WindCloud.Server.Usage

/-!
# What a command does to the tables

Where no statement fails but an insertion that a unique key rejects, a command
that is executed with nothing else running changes the tables by one function of
the session and the argument, or leaves them alone.
-/

set_option autoImplicit false

namespace WindCloud
open CString Hex Effect

namespace Db

/-- `dao_get_node_by_path`, to which the root is always there. -/
def lookup (db : Db) (userId : ℤ) (path : Text) : Option (ℕ × ℕ) :=
  if path = "/".toList then some (0,1) else (db.nodeAt userId path).map fun r => (r.id,r.type)

/-- The number and the file of a file node. -/
def fileInfo (db : Db) (userId : ℤ) (path : Text) : Option (ℕ × ℕ) :=
  match db.nodeAt userId path with
  | none => none
  | some r => if r.type = 0 then r.fileId.map fun f => (r.id,f) else none

/-- The target of an argument under which a node may be created. -/
def vacant (db : Db) (ctx : ClientContext) (arg : Text) : Bool :=
  decide (arg ≠ []) && isValidVfsName (baseName (absPath ctx.currentPath arg)) &&
    (db.lookup ctx.userId (absPath ctx.currentPath arg)).isNone

def mkdir (db : Db) (ctx : ClientContext) (arg : Text) : Db :=
  if db.vacant ctx arg then
    db.addPath ctx.userId (absPath ctx.currentPath arg) none ctx.currentDirId
      (baseName (absPath ctx.currentPath arg)) 1
  else db

/-- One more path for the file with this hash, with a new row where it has none. -/
def link (db : Db) (userId : ℤ) (path : Text) (parentId : ℕ) (fileName : Text) (bs : List ℕ)
    (size : ℤ) : Db :=
  match db.fileOf bs with
  | some r => (db.addPath userId path (some r.id) parentId fileName 0).addRef r.id
  | none => (db.addFile bs size).addPath userId path (some db.nextFile) parentId fileName 0

def touch (db : Db) (ctx : ClientContext) (arg : Text) (bs : List ℕ) : Db :=
  if db.vacant ctx arg then
    db.link ctx.userId (absPath ctx.currentPath arg) ctx.currentDirId
      (baseName (absPath ctx.currentPath arg)) bs 0
  else db

/-- One reference less to a file; its row goes with the last one. -/
def release (db : Db) (fileId : ℕ) : Db :=
  match (db.subRef fileId).fileWithId fileId with
  | none => db
  | some r =>
    if 0 < r.count then db.subRef fileId
    else (if fileId = 0 then db.subRef fileId else (db.subRef fileId).dropSources fileId).dropFile fileId

/-- The node and the file `rm` finds. -/
def removable (db : Db) (ctx : ClientContext) (arg : Text) : Option (ℕ × ℕ) :=
  if arg = [] then none
  else
    match db.lookup ctx.userId (absPath ctx.currentPath arg) with
    | none => none
    | some (id,type) =>
      if type = 1 then none
      else (db.fileInfo ctx.userId (absPath ctx.currentPath arg)).map fun e => (id,e.2)

/-- The hash of the file whose row goes when a reference does. -/
def lastHash (db : Db) (fileId : ℕ) : Option Text :=
  match (db.subRef fileId).fileWithId fileId with
  | none => none
  | some r => if 0 < r.count then none else some (hexLower r.sha256sum)

def rm (db : Db) (ctx : ClientContext) (arg : Text) : Db :=
  match db.removable ctx arg with
  | none => db
  | some (id,fileId) => (db.dropPath ctx.userId id).release fileId

def rmdir (db : Db) (ctx : ClientContext) (arg : Text) : Db :=
  if arg = [] then db
  else
    match db.lookup ctx.userId (absPath ctx.currentPath arg) with
    | none => db
    | some (id,type) =>
      if type = 0 then db
      else if db.paths.any fun r => r.userId = ctx.userId ∧ r.parentId = id then db
      else db.dropPath ctx.userId id

end Db

section Rules

variable {ι : Type} [DecidableEq ι] {lib : Library} {ok : Op → World ι → Choice → Prop} {i : ι}
  {α β : Type} {w : World ι}

def StatementsHold (ok : Op → World ι → Choice → Prop) : Prop :=
  ∀ t w c, ok (.sql t) w c → c ≠ .fault

/-- Operations that neither run a statement nor unlink a file. -/
def Op.tableless : Op → Bool
  | .sql _ | .unlink _ => false
  | _ => true

structure SameTables (w w' : World ι) : Prop where
  db : w'.db = w.db
  unlinked : w'.node.unlinked = w.node.unlinked
  storeDir : w'.node.storeDir = w.node.storeDir

abbrev Tableless (p : Server α) : Prop := p.Uses fun o => o.tableless = true

theorem execute_unlinked {o : Op} {r : o.Res} {w' : World ι} {c : Choice}
    (ho : ∀ path, o ≠ .unlink path) (h : execute lib o i w c = some (r,w')) :
    w'.node.unlinked = w.node.unlinked := by
  by_cases hq : o.quiet = true
  · rw [execute_quiet hq h]
  cases o <;> simp only [Op.quiet,not_true] at hq
  case unlink path => exact absurd rfl (ho path)
  case sql t => rcases execute_sql h with ⟨_,db,_,rfl⟩ | ⟨_,_,rfl⟩ <;> rfl
  case openUpload path => rcases execute_openUpload h with ⟨_,rfl⟩ | ⟨_,rfl⟩ <;> rfl
  case openEmpty path => rcases execute_openEmpty h with ⟨_,rfl⟩ | ⟨_,rfl⟩ <;> rfl
  case openRead path => rcases execute_openRead h with ⟨n,_,_,rfl⟩ | ⟨_,rfl⟩ <;> rfl
  case ftruncate size =>
    rcases execute_ftruncate h with ⟨d,_,_,_,_,rfl⟩ | ⟨_,_,_,rfl⟩ | ⟨_,_,rfl⟩ <;> rfl
  case lseek pos =>
    rcases execute_lseek h with ⟨d,_,_,_,_,rfl⟩ | ⟨_,_,_,rfl⟩ | ⟨_,_,rfl⟩ <;> rfl
  case write buf => rcases execute_write h with ⟨d,_,_,_,rfl⟩ | ⟨_,_,rfl⟩ <;> rfl
  case recvMapped pos once =>
    rcases execute_recvMapped h with ⟨d,_,_,_,_,rfl⟩ | ⟨_,_,rfl⟩ <;> rfl
  case close =>
    rw [execute_close h]
    rfl
  case recv once => rcases execute_recv h with ⟨n,_,_,_,_,rfl⟩ | ⟨_,_,rfl⟩ <;> rfl
  case send p => rcases execute_send h with ⟨_,_,rfl⟩ | ⟨_,_,rfl⟩ <;> rfl
  case randBytes count => cases c <;> simp [execute] at h <;> grind
  case jwtEncode p => cases c <;> simp [execute] at h <;> grind
  case ticketRegister now id =>
    cases c <;> simp [execute] at h
    obtain ⟨_,rfl⟩ := h
    rfl
  case ticketConsume now id =>
    cases c <;> simp [execute] at h
    obtain ⟨_,rfl⟩ := h
    rfl
  case overflow => exact r.elim

theorem execute_tableless {o : Op} {r : o.Res} {w' : World ι} {c : Choice}
    (ho : o.tableless = true) (h : execute lib o i w c = some (r,w')) : SameTables w w' where
  db := execute_db (by cases o <;> first | rfl | cases ho) h
  unlinked := execute_unlinked (by rintro path rfl; cases ho) h
  storeDir := (execute_announced h).1

omit [DecidableEq ι] in
theorem sameTables_trans {w₁ w₂ : World ι} (h : SameTables w w₁) (h' : SameTables w₁ w₂) :
    SameTables w w₂ :=
  ⟨h'.db.trans h.db,h'.unlinked.trans h.unlinked,h'.storeDir.trans h.storeDir⟩

/-- Weakest precondition of what a thread does with nothing else running. -/
abbrev Solo (lib : Library) (ok : Op → World ι → Choice → Prop) (i : ι) (p : Server α)
    (Q : α → World ι → Prop) (w : World ι) : Prop :=
  (server ι lib).wlp ok i p Q w

theorem solo_tableless {p : Server α} {Q : α → World ι → Prop} (hp : Tableless p)
    (hQ : ∀ a w', SameTables w w' → Q a w') : Solo lib ok i p Q w := by
  induction p generalizing w with
  | ret a => exact hQ a w ⟨rfl,rfl,rfl⟩
  | op o k ih =>
    intro c r w₁ _ hx
    have h₁ := execute_tableless hp.1 hx
    exact ih r (hp.2 r) fun a w' h' => hQ a w' (sameTables_trans h₁ h')

theorem solo_bind {p : Server α} {f : α → Server β} {Q : β → World ι → Prop}
    (h : Solo lib ok i p (fun a w' => Solo lib ok i (f a) Q w') w) :
    Solo lib ok i (p >>= f) Q w :=
  (Machine.wlp_bind p f Q w).mpr h

theorem solo_before {p : Server α} {f : α → Server β} {Q : β → World ι → Prop} (hp : Tableless p)
    (hf : ∀ a w', SameTables w w' → Solo lib ok i (f a) Q w') : Solo lib ok i (p >>= f) Q w :=
  solo_bind (solo_tableless hp hf)

theorem solo_sql (hok : StatementsHold ok) {t : Statement} {f : t.Res → Server β}
    {Q : β → World ι → Prop}
    (h : Solo lib ok i (f (t.exec w.db).1) Q { w with db := (t.exec w.db).2 }) :
    Solo lib ok i (sql t >>= f) Q w := by
  intro c r w' hc hx
  rcases execute_sql hx with ⟨_,db,he,rfl⟩ | ⟨rfl,_⟩
  · rw [he] at h
    exact h
  · exact absurd rfl (hok t w _ hc)

theorem solo_strcpy {size : ℕ} {t : Text} {f : Text → Server β} {Q : β → World ι → Prop}
    (h : t.length < size → Solo lib ok i (f t) Q w) : Solo lib ok i (strcpy size t >>= f) Q w := by
  unfold strcpy
  split
  · rename_i hlt
    exact h hlt
  · exact fun c r w' _ _ => r.elim

theorem solo_sendMsg {msg : Text} {Q : Unit → World ι → Prop}
    (h : ∀ w', SameTables w w' → Q () w') : Solo lib ok i (sendMsg msg) Q w :=
  solo_tableless ⟨rfl,fun _ => trivial⟩ fun _ => h

theorem solo_getNodeByPath (hok : StatementsHold ok) {userId : ℤ} {path : Text}
    {f : Option (ℕ × ℕ) → Server β} {Q : β → World ι → Prop}
    (h : Solo lib ok i (f (w.db.lookup userId path)) Q w) :
    Solo lib ok i (daoGetNodeByPath userId path >>= f) Q w := by
  unfold daoGetNodeByPath Db.lookup at *
  split
  · rename_i hroot
    rw [if_pos hroot] at h
    exact h
  · rename_i hroot
    rw [if_neg hroot] at h
    exact solo_sql hok h

theorem solo_getFileInfoByPath (hok : StatementsHold ok) {userId : ℤ} {path : Text}
    {f : Option (ℕ × ℕ) → Server β} {Q : β → World ι → Prop}
    (h : Solo lib ok i (f (w.db.fileInfo userId path)) Q w) :
    Solo lib ok i (daoGetFileInfoByPath userId path >>= f) Q w := by
  refine solo_bind (solo_sql hok ?_)
  simp only [Statement.exec,Db.fileInfo] at h ⊢
  cases hn : w.db.nodeAt userId path with
  | none =>
    simp only [hn,Option.map_none] at h ⊢
    exact h
  | some r =>
    simp only [hn,Option.map_some] at h ⊢
    cases hf : r.fileId with
    | none =>
      simp only [hf,Option.map_none,ite_self] at h
      exact h
    | some fileId =>
      simp only [hf,Option.map_some] at h ⊢
      split
      · rename_i ht
        rw [if_pos ht] at h
        exact h
      · rename_i ht
        rw [if_neg ht] at h
        exact h

end Rules

section Directories

variable {ι : Type} [DecidableEq ι] {lib : Library} {ok : Op → World ι → Choice → Prop} {i : ι}
  {w : World ι}

theorem vacant_true {db : Db} {ctx : ClientContext} {arg : Text} (h : db.vacant ctx arg = true) :
    arg ≠ [] ∧ isValidVfsName (baseName (absPath ctx.currentPath arg)) = true ∧
      db.lookup ctx.userId (absPath ctx.currentPath arg) = none ∧
      db.nodeAt ctx.userId (absPath ctx.currentPath arg) = none := by
  simp only [Db.vacant,Bool.and_eq_true,decide_eq_true_eq,Option.isNone_iff_eq_none] at h
  obtain ⟨⟨ha,hv⟩,hn⟩ := h
  refine ⟨ha,hv,hn,?_⟩
  unfold Db.lookup at hn
  split at hn
  · cases hn
  · exact Option.map_eq_none_iff.mp hn

theorem vacant_iff {db : Db} {ctx : ClientContext} {arg : Text} : db.vacant ctx arg = true ↔
    arg ≠ [] ∧ isValidVfsName (baseName (absPath ctx.currentPath arg)) = true ∧
      db.lookup ctx.userId (absPath ctx.currentPath arg) = none := by
  simp [Db.vacant,Bool.and_eq_true,and_assoc]

def Leads (w : World ι) (db : Db) (w' : World ι) : Prop :=
  w'.db = db ∧ w'.node.unlinked = w.node.unlinked ∧ w'.node.storeDir = w.node.storeDir

omit [DecidableEq ι] in
theorem leads_same {w' : World ι} (h : SameTables w w') : Leads w w.db w' :=
  ⟨h.db,h.unlinked,h.storeDir⟩

theorem solo_mkdir (hok : StatementsHold ok) (ctx : ClientContext) (arg : Text) :
    Solo lib ok i (handleMkdir ctx arg) (fun _ => Leads w (w.db.mkdir ctx arg)) w := by
  have hkept : w.db.vacant ctx arg = false → ∀ msg,
      Solo lib ok i (sendMsg msg) (fun _ => Leads w (w.db.mkdir ctx arg)) w := by
    intro hv msg
    refine solo_sendMsg fun w' h => ?_
    rw [Db.mkdir,if_neg (by simp [hv])]
    exact leads_same h
  unfold handleMkdir
  split
  · rename_i ha
    exact hkept (by simp [Db.vacant,ha]) _
  rename_i ha
  refine solo_strcpy fun _ => solo_strcpy fun _ => ?_
  split
  · rename_i hvalid
    refine solo_getNodeByPath hok ?_
    cases hl : w.db.lookup ctx.userId (absPath ctx.currentPath arg) with
    | some node => exact hkept (by simp [Db.vacant,hl]) _
    | none =>
      have hv : w.db.vacant ctx arg = true := vacant_iff.mpr ⟨ha,hvalid,hl⟩
      obtain ⟨_,_,_,hn⟩ := vacant_true hv
      refine solo_sql hok ?_
      simp only [Statement.exec,hn,Option.isSome_none,Bool.false_eq_true,if_false]
      refine solo_sendMsg fun w' h => ?_
      rw [Db.mkdir,if_pos hv]
      exact leads_same h
  · rename_i hvalid
    exact hkept (by simp [Db.vacant,hvalid]) _

theorem solo_rmdir (hok : StatementsHold ok) (ctx : ClientContext) (arg : Text) :
    Solo lib ok i (handleRmdir ctx arg) (fun _ => Leads w (w.db.rmdir ctx arg)) w := by
  have hsend : ∀ db (w₁ : World ι) msg, Leads w db w₁ →
      Solo lib ok i (sendMsg msg) (fun _ => Leads w db) w₁ := fun db w₁ msg h =>
    solo_sendMsg fun w' h' => ⟨h'.db.trans h.1,h'.unlinked.trans h.2.1,h'.storeDir.trans h.2.2⟩
  unfold handleRmdir Db.rmdir
  split
  · exact hsend _ _ _ ⟨rfl,rfl,rfl⟩
  refine solo_strcpy fun _ => solo_getNodeByPath hok ?_
  rcases w.db.lookup ctx.userId (absPath ctx.currentPath arg) with _ | ⟨id,type⟩
  · exact hsend _ _ _ ⟨rfl,rfl,rfl⟩
  dsimp only
  split
  · exact hsend _ _ _ ⟨rfl,rfl,rfl⟩
  refine solo_bind (solo_sql hok ?_)
  simp only [Statement.exec]
  cases w.db.paths.any fun r => r.userId = ctx.userId ∧ r.parentId = id with
  | true => exact hsend _ _ _ ⟨rfl,rfl,rfl⟩
  | false => exact solo_sql hok (hsend _ _ _ ⟨rfl,rfl,rfl⟩)

end Directories

section Files

variable {ι : Type} [DecidableEq ι] {lib : Library} {ok : Op → World ι → Choice → Prop} {i : ι}
  {w : World ι}

theorem lookup_none {db : Db} {userId : ℤ} {path : Text} (h : db.lookup userId path = none) :
    db.nodeAt userId path = none := by
  unfold Db.lookup at h
  split at h
  · cases h
  · exact Option.map_eq_none_iff.mp h

theorem fileOf_append {db : Db} {bs : List ℕ} {size : ℤ} (h : db.fileOf bs = none) :
    (db.addFile bs size).fileOf bs = some ⟨db.nextFile,bs,size,1⟩ := by
  have hf : db.files.find? (fun r => decide (r.sha256sum = bs)) = none := h
  simp [Db.fileOf,Db.addFile,hf]

theorem solo_findHash {β : Type} (hok : StatementsHold ok) {h : Text} {bs : List ℕ}
    (hh : IsHash h) (hb : unhex h = some bs) {f : Option (ℕ × ℤ) → Server β}
    {Q : β → World ι → Prop}
    (hf : Solo lib ok i (f ((w.db.fileOf bs).map fun r => (r.id,r.size))) Q w) :
    Solo lib ok i (daoFileFindBySha256 h >>= f) Q w := by
  refine solo_sql hok ?_
  obtain ⟨bs',hb',_,he⟩ := Statement.exec_fileBySha256 hh w.db
  obtain rfl : bs' = bs := Option.some.inj (hb'.symm.trans hb)
  rw [he]
  exact hf

theorem solo_fileInsert {β : Type} (hok : StatementsHold ok) {h : Text} {bs : List ℕ} {size : ℤ}
    (hh : IsHash h) (hb : unhex h = some bs) {f : Option ℕ → Server β} {Q : β → World ι → Prop}
    (hold : (w.db.fileOf bs).isSome = true → Solo lib ok i (f none) Q w)
    (hnew : w.db.fileOf bs = none →
      Solo lib ok i (f (some w.db.nextFile)) Q { w with db := w.db.addFile bs size }) :
    Solo lib ok i (daoFileInsert h size >>= f) Q w := by
  obtain ⟨bs',hb',_,he⟩ := Statement.exec_insertFile hh w.db size
  obtain rfl : bs' = bs := Option.some.inj (hb'.symm.trans hb)
  refine solo_bind (solo_sql hok ?_)
  rw [he]
  cases hf : w.db.fileOf bs' with
  | some r =>
    simp only [Option.isSome_some,if_true,Bool.false_eq_true,if_false]
    exact hold (by simp [hf])
  | none =>
    simp only [Option.isSome_none,Bool.false_eq_true,if_false,if_true]
    refine solo_findHash hok hh hb ?_
    rw [fileOf_append hf]
    exact hnew hf

theorem solo_linkRow {β : Type} (hok : StatementsHold ok) {userId : ℤ} {path fileName : Text}
    {parentId fileId : ℕ} (hn : w.db.nodeAt userId path = none) {f : Bool → Server β}
    {Q : β → World ι → Prop}
    (h : Solo lib ok i (f true) Q
      { w with db := (w.db.addPath userId path (some fileId) parentId fileName 0).addRef fileId }) :
    Solo lib ok i ((daoCreateFileNode userId path parentId fileName fileId >>= fun r =>
      if r = true then daoFileAddRefCount fileId else pure false) >>= f) Q w := by
  refine solo_bind (solo_sql hok ?_)
  simp only [Statement.exec,hn,Option.isSome_none,Bool.false_eq_true,if_false,if_true]
  have hadd : Solo lib ok i (daoFileAddRefCount fileId >>= f) Q
      { w with db := w.db.addPath userId path (some fileId) parentId fileName 0 } :=
    solo_sql hok h
  exact (Machine.wlp_bind _ _ _ _).mp hadd

theorem solo_linkNew {β : Type} (hok : StatementsHold ok) {userId : ℤ} {path fileName : Text}
    {parentId fileId : ℕ} (hn : w.db.nodeAt userId path = none) {f : Bool → Server β}
    {Q : β → World ι → Prop}
    (h : Solo lib ok i (f true) Q
      { w with db := w.db.addPath userId path (some fileId) parentId fileName 0 }) :
    Solo lib ok i (daoCreateFileNode userId path parentId fileName fileId >>= f) Q w := by
  refine solo_sql hok ?_
  simp only [Statement.exec,hn,Option.isSome_none,Bool.false_eq_true,if_false]
  exact h

def emptyFileBytes : List ℕ := (unhex emptyFileSha256).getD []

theorem emptyFile_hash : IsHash emptyFileSha256 := by decide +kernel

theorem emptyFile_unhex : unhex emptyFileSha256 = some emptyFileBytes := by decide +kernel

theorem solo_createEmptyFileNode (hok : StatementsHold ok) {ctx : ClientContext}
    {path fileName : Text} (hn : w.db.nodeAt ctx.userId path = none) :
    Solo lib ok i (createEmptyFileNode ctx path fileName) (fun r w' =>
      (r = true ∧ Leads w (w.db.link ctx.userId path ctx.currentDirId fileName emptyFileBytes 0) w') ∨
        (r = false ∧ Leads w w.db w')) w := by
  have hready : Tableless ensureEmptyStoreFileExists := by
    refine Program.uses_bind _ _ (buildStoreFilePath_uses (fun o => o.tableless = true) rfl _)
      fun r => ?_
    cases r with
    | none => trivial
    | some path => exact ⟨rfl,fun _ => trivial⟩
  refine solo_before hready fun done w₁ h₁ => ?_
  rw [← h₁.db] at hn ⊢
  have hlead : ∀ db (w' : World ι), w'.db = db → w'.node = w₁.node → Leads w db w' := by
    intro db w' hdb hnode
    exact ⟨hdb,by rw [hnode,h₁.unlinked],by rw [hnode,h₁.storeDir]⟩
  cases done with
  | false => exact .inr ⟨rfl,hlead _ _ rfl rfl⟩
  | true =>
    simp only [if_true]
    refine solo_findHash hok emptyFile_hash emptyFile_unhex ?_
    cases hf : w₁.db.fileOf emptyFileBytes with
    | some r =>
      have hreuse : Solo lib ok i (reuseEmptyFile ctx path fileName r.id >>= Program.ret)
          (fun r' w' => r' = true ∧ Leads w (w₁.db.link ctx.userId path ctx.currentDirId fileName
            emptyFileBytes 0) w') w₁ :=
        solo_linkRow hok hn ⟨rfl,hlead _ _ (by simp [Db.link,hf]) rfl⟩
      rw [Program.bind_ret] at hreuse
      exact Machine.wlp_mono _ (fun _ _ h => .inl h) hreuse
    | none =>
      refine solo_fileInsert hok emptyFile_hash emptyFile_unhex (by simp [hf]) fun _ => ?_
      refine solo_linkNew (w := { w₁ with db := w₁.db.addFile emptyFileBytes 0 }) hok hn ?_
      exact .inl ⟨rfl,hlead _ _ (by simp [Db.link,hf]) rfl⟩

theorem solo_touch (hok : StatementsHold ok) (ctx : ClientContext) (arg : Text) :
    Solo lib ok i (handleTouch ctx arg) (fun _ w' =>
      Leads w (w.db.touch ctx arg emptyFileBytes) w' ∨ Leads w w.db w') w := by
  have hkept : ∀ msg (w₁ : World ι), Leads w w.db w₁ →
      Solo lib ok i (sendMsg msg) (fun _ w' =>
        Leads w (w.db.touch ctx arg emptyFileBytes) w' ∨ Leads w w.db w') w₁ := by
    intro msg w₁ h
    exact solo_sendMsg fun w' h' =>
      .inr ⟨h'.db.trans h.1,h'.unlinked.trans h.2.1,h'.storeDir.trans h.2.2⟩
  unfold handleTouch
  split
  · exact hkept _ _ ⟨rfl,rfl,rfl⟩
  rename_i ha
  refine solo_strcpy fun _ => solo_strcpy fun _ => ?_
  split
  · rename_i hvalid
    refine solo_getNodeByPath hok ?_
    cases hl : w.db.lookup ctx.userId (absPath ctx.currentPath arg) with
    | some node => exact hkept _ _ ⟨rfl,rfl,rfl⟩
    | none =>
      have hv : w.db.vacant ctx arg = true := vacant_iff.mpr ⟨ha,hvalid,hl⟩
      refine solo_bind (Machine.wlp_mono _ ?_ (solo_createEmptyFileNode hok (lookup_none hl)))
      rintro r w₁ (⟨rfl,h⟩ | ⟨rfl,h⟩)
      · refine solo_sendMsg fun w' h' => .inl ?_
        rw [Db.touch,if_pos hv]
        exact ⟨h'.db.trans h.1,h'.unlinked.trans h.2.1,h'.storeDir.trans h.2.2⟩
      · exact hkept _ _ h
  · exact hkept _ _ ⟨rfl,rfl,rfl⟩

/-- Neither the store directory nor the removal of a store file fails. -/
def RemovalsHold (ok : Op → World ι → Choice → Prop) : Prop :=
  (∀ w c, ok .storeDir w c → c ≠ .fault) ∧ ∀ path w c, ok (.unlink path) w c → c ≠ .fault

/-- At most the file with the hash `last` is unlinked, and it is unless the store
directory or its removal fails. -/
structure Unlinks (ok : Op → World ι → Choice → Prop) (w : World ι) (last : Option Text)
    (w' : World ι) : Prop where
  storeDir : w'.node.storeDir = w.node.storeDir
  only : w'.node.unlinked = w.node.unlinked ∨
    ∃ h, last = some h ∧ w'.node.unlinked = w.node.unlinked ++ [storePath w.node.storeDir h]
  removed : RemovalsHold ok → ∀ h, last = some h →
    (storePath w.node.storeDir h).length < maxPathLen →
      w'.node.unlinked = w.node.unlinked ++ [storePath w.node.storeDir h]

omit [DecidableEq ι] in
theorem unlinks_none {w' : World ι} (hd : w'.node.storeDir = w.node.storeDir)
    (hu : w'.node.unlinked = w.node.unlinked) : Unlinks ok w none w' :=
  ⟨hd,.inl hu,nofun⟩

omit [DecidableEq ι] in
theorem unlinks_same {last : Option Text} {w₁ w₂ : World ι} (h : Unlinks ok w last w₁)
    (h' : SameTables w₁ w₂) : Unlinks ok w last w₂ where
  storeDir := h'.storeDir.trans h.storeDir
  only := by
    rw [h'.unlinked]
    exact h.only
  removed hok hash hl hlen := h'.unlinked.trans (h.removed hok hash hl hlen)

theorem solo_unlinkStoreFile (h : Text) :
    Solo lib ok i (unlinkStoreFile h)
      (fun _ w' => w'.db = w.db ∧ Unlinks ok w (some h) w') w := by
  intro c r w₁ hc hx
  obtain ⟨hr,rfl⟩ := execute_storeDir hx
  rcases hr with rfl | rfl
  · simp only [Program.bind,Program.pure_eq]
    cases hb : bounded maxPathLen (w₁.node.storeDir ++ '/'::h) with
    | none =>
      refine ⟨rfl,rfl,.inl rfl,fun _ h' he hlen => ?_⟩
      obtain rfl := Option.some.inj he
      unfold bounded at hb
      rw [if_pos (by exact hlen)] at hb
      cases hb
    | some path =>
      obtain ⟨rfl,_⟩ := bounded_eq_some.mp hb
      intro c r w₂ hc₂ hx₂
      rcases execute_unlink hx₂ with ⟨_,rfl⟩ | ⟨rfl,rfl⟩
      · refine ⟨rfl,rfl,.inr ⟨h,rfl,rfl⟩,fun _ h' he _ => ?_⟩
        obtain rfl := Option.some.inj he
        rfl
      · exact ⟨rfl,rfl,.inl rfl,fun hok _ _ _ => absurd rfl (hok.2 _ _ _ hc₂)⟩
  · have hfault : c = .fault := by
      cases c <;> simp [execute] at hx ⊢
    exact ⟨rfl,rfl,.inl rfl,fun hok _ _ _ => absurd hfault (hok.1 _ _ hc)⟩

theorem subRef_fileWithId (db : Db) (fileId : ℕ) :
    (db.subRef fileId).fileWithId fileId = (db.fileWithId fileId).map fun r =>
      if 0 < r.count then { r with count := r.count-1 } else r := by
  simp only [Db.fileWithId,Db.subRef,List.find?_map]
  have hp : ((fun r : FileRow => decide (r.id = fileId)) ∘ fun r : FileRow =>
      if r.id = fileId ∧ 0 < r.count then { r with count := r.count-1 } else r) =
      fun r => decide (r.id = fileId) := by
    funext r
    simp only [Function.comp_apply]
    split <;> rfl
  rw [hp]
  cases hf : db.files.find? fun r => decide (r.id = fileId) with
  | none => rfl
  | some r =>
    have hid : r.id = fileId := by simpa using List.find?_some hf
    simp [hid]

theorem subRef_none {db : Db} {fileId : ℕ} (h : db.fileWithId fileId = none) :
    (db.subRef fileId).fileWithId fileId = none := by
  rw [subRef_fileWithId,h]
  rfl

theorem subRef_some {db : Db} {fileId : ℕ} {r : FileRow} (h : db.fileWithId fileId = some r) :
    ∃ r', (db.subRef fileId).fileWithId fileId = some r' ∧ r'.sha256sum = r.sha256sum ∧
      r'.count = r.count-1 := by
  rw [subRef_fileWithId,h]
  refine ⟨_,rfl,?_⟩
  dsimp only
  split
  · exact ⟨rfl,rfl⟩
  · exact ⟨rfl,by omega⟩

theorem solo_release (hok : StatementsHold ok) (fileId : ℕ) :
    Solo lib ok i (releaseFileEntityIfUnused fileId)
      (fun _ w' => w'.db = w.db.release fileId ∧ Unlinks ok w (w.db.lastHash fileId) w') w := by
  refine solo_sql hok ?_
  simp only [Statement.exec]
  cases hf : w.db.fileWithId fileId with
  | none =>
    rw [Db.release,Db.lastHash,subRef_none hf]
    exact ⟨rfl,unlinks_none rfl rfl⟩
  | some r =>
    obtain ⟨r',hr',hsum,_⟩ := subRef_some hf
    rw [Db.release,Db.lastHash,hr']
    refine solo_sql hok (solo_sql hok ?_)
    simp only [Statement.exec,hr',Option.map_some,← hsum]
    split
    · exact ⟨rfl,unlinks_none rfl rfl⟩
    · refine solo_bind (Machine.wlp_mono _ ?_ (solo_unlinkStoreFile _))
      rintro _ w₁ ⟨hdb,hu⟩
      have hsub : w.db.subRef fileId = w₁.db := hdb.symm
      rw [hsub]
      unfold daoFileSourceDeleteByFileId
      have hdelete : ∀ w₂ : World ι, SameTables w₁ { w₂ with db := w₁.db } →
          Solo lib ok i (daoFileDelete fileId >>= Program.ret) (fun _ w' =>
            w'.db = w₂.db.dropFile fileId ∧
              Unlinks ok w (some (hexLower r'.sha256sum)) w') w₂ := by
        intro w₂ h₂
        refine solo_sql hok ⟨rfl,?_⟩
        have h := unlinks_same hu h₂
        exact ⟨h.storeDir,h.only,h.removed⟩
      rw [Program.bind_ret] at hdelete
      split
      · exact hdelete w₁ ⟨rfl,rfl,rfl⟩
      · exact solo_sql hok (hdelete _ ⟨rfl,rfl,rfl⟩)

theorem solo_rm (hok : StatementsHold ok) (ctx : ClientContext) (arg : Text) :
    Solo lib ok i (handleRm ctx arg) (fun _ w' => w'.db = w.db.rm ctx arg ∧
      Unlinks ok w ((w.db.removable ctx arg).bind fun e => w.db.lastHash e.2) w') w := by
  have hkept : w.db.removable ctx arg = none → ∀ msg,
      Solo lib ok i (sendMsg msg) (fun _ w' => w'.db = w.db.rm ctx arg ∧
        Unlinks ok w ((w.db.removable ctx arg).bind fun e => w.db.lastHash e.2) w') w := by
    intro hr msg
    refine solo_sendMsg fun w' h => ?_
    rw [Db.rm,hr]
    exact ⟨h.db,unlinks_none h.storeDir h.unlinked⟩
  unfold handleRm
  split
  · rename_i ha
    exact hkept (by simp [Db.removable,ha]) _
  rename_i ha
  refine solo_strcpy fun _ => solo_getNodeByPath hok ?_
  rcases hl : w.db.lookup ctx.userId (absPath ctx.currentPath arg) with _ | ⟨id,type⟩
  · exact hkept (by simp [Db.removable,ha,hl]) _
  dsimp only
  split
  · rename_i ht
    exact hkept (by simp [Db.removable,ha,hl,ht]) _
  rename_i ht
  refine solo_getFileInfoByPath hok ?_
  rcases hi : w.db.fileInfo ctx.userId (absPath ctx.currentPath arg) with _ | ⟨_,fileId⟩
  · exact hkept (by simp [Db.removable,ha,hl,ht,hi]) _
  have hr : w.db.removable ctx arg = some (id,fileId) := by
    simp [Db.removable,ha,hl,ht,hi]
  refine solo_bind (solo_sql hok ?_)
  refine Machine.wlp_mono _ ?_ (solo_release hok fileId)
  rintro done w₁ ⟨hdb,hu⟩
  have hlast : Unlinks ok w (w.db.lastHash fileId) w₁ := ⟨hu.storeDir,hu.only,hu.removed⟩
  rw [Db.rm,hr]
  cases done <;> exact solo_sendMsg fun w' h =>
    ⟨h.db.trans hdb,unlinks_same hlast h⟩

end Files

end WindCloud
