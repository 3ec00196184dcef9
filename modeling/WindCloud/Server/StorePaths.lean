import WindCloud.Server.Keys
import WindCloud.Server.UploadAlone

/-!
# Store files and the rows that name them

`handle_puts` names the store file by the text in the client's packet, while a
download or a removal names it by the digits of the column `sha256sum`. The two
names are one exactly for lower-case hexadecimal texts of 64 digits.
-/

set_option autoImplicit false

namespace WindCloud
open CString Effect Function

/-- The store files an upload opened, and the rows of `files` it inserted,
linked or counted. -/
structure Touched where
  opened : List Text
  rows : List ℕ
  deriving DecidableEq, Repr

namespace Touched

def none : Touched := ⟨[],[]⟩

def note {ι : Type} : (o : Op) → o.Res → World ι → Touched → Touched
  | .openUpload path, (done : Bool), _, x =>
    if done = true then { x with opened := x.opened ++ [path] } else x
  | .sql (.insertFile _ _), (done : Bool), w, x =>
    if done = true then { x with rows := x.rows ++ [w.db.nextFile] } else x
  | .sql (.createFileNode _ _ _ _ fileId), (done : Bool), _, x =>
    if done = true then { x with rows := x.rows ++ [fileId] } else x
  | .sql (.addRefCount fileId), (done : Bool), _, x =>
    if done = true then { x with rows := x.rows ++ [fileId] } else x
  | _, _, _, x => x

end Touched

/-- Every opened store file has a hash as its name, and is the file that the
touched rows name, whatever statements follow. -/
def NamesAgree (storeDir : Text) (x : Touched) (db : Db) : Prop :=
  ∀ p ∈ x.opened, (∃ h, Hex.IsHash h ∧ p = storePath storeDir h) ∧
    ∀ id ∈ x.rows, ∀ ss h size,
      ((Statement.fileInfoById id).exec (db.after ss)).1 = some (h,size) → storePath storeDir h = p

/-- The inputs with which an upload can come to open its store file. -/
def OpensStoreFile (ctx : ClientContext) (arg storeDir hash : Text) : Prop :=
  hash ≠ [] ∧ (storePath storeDir hash).length < maxPathLen ∧
    ∃ fullPath, buildFullVirtualPath fullPathLen ctx arg = some fullPath ∧
      isValidVfsName (baseName fullPath) = true

namespace Op

/-- Operations by which no store file is opened for an upload and no row of
`files` is inserted, linked, counted or deleted. -/
def unlinking : Op → Bool
  | .openUpload _ | .sql (.insertFile _ _) | .sql (.createFileNode _ _ _ _ _)
  | .sql (.addRefCount _) | .sql (.deleteFile _) => false
  | _ => true

end Op

section Linking

variable {ι : Type} [DecidableEq ι] (lib : Library) (i : ι) {α β : Type}

abbrev Linking (p : Server α) (Q : α → World ι × (ι → Touched) → Prop)
    (s : World ι × (ι → Touched)) : Prop :=
  ((server ι lib).recorded Touched.note).wlp (fun _ _ _ => True) i p Q s

/-- The row numbered `id` has the hash. -/
def HasHash (h : Text) (id : ℕ) (db : Db) : Prop :=
  ∃ r ∈ db.files, r.id = id ∧ Hex.hexLower r.sha256sum = h

/-- What has been opened and linked so far carries the packet's hash `h`. -/
structure Linked (dir h : Text) (i : ι) (s : World ι × (ι → Touched)) : Prop where
  storeDir : s.1.node.storeDir = dir
  hello : (s.1.node.conn i).hello.hash = h
  keyed : s.1.db.Keyed
  opened : ∀ p ∈ (s.2 i).opened, p = storePath dir h
  rows : ∀ id ∈ (s.2 i).rows, HasHash h id s.1.db

variable {lib i} {s : World ι × (ι → Touched)} {dir h : Text}

theorem linking_op {o : Op} {f : o.Res → Server α} {Q : α → World ι × (ι → Touched) → Prop}
    (hs : ∀ c r w', execute lib o i s.1 c = some (r,w') →
      Linking lib i (f r) Q (w',update s.2 i (Touched.note o r s.1 (s.2 i)))) :
    Linking lib i (perform o >>= f) Q s := by
  intro c r s' _ hx
  obtain ⟨hx,hp⟩ := recorded_exec hx
  have hn := hs c r s'.1 hx
  rwa [← hp] at hn

omit [DecidableEq ι] in
theorem note_unlinking {o : Op} {r : o.Res} (ho : o.unlinking = true) (w : World ι)
    (x : Touched) : Touched.note o r w x = x := by
  cases o with
  | sql t => cases t <;> simp only [Op.unlinking,Bool.false_eq_true] at ho <;> rfl
  | openUpload path => simp [Op.unlinking] at ho
  | _ => rfl

theorem hasHash_exec {t : Statement} {id : ℕ} {db : Db} (ht : ∀ id, t ≠ .deleteFile id)
    (hn : HasHash h id db) : HasHash h id (t.exec db).2 := by
  obtain ⟨r,hr,hid,hh⟩ := hn
  obtain ⟨r',hr',hid',hs'⟩ := exec_keeps_file ht db hr
  exact ⟨r',hr',hid'.trans hid,by rw [hs',hh]⟩

theorem unlinking_db {o : Op} {w w' : World ι} {c : Choice} {r : o.Res} (ho : o.unlinking = true)
    (hk : w.db.Keyed) (hx : execute lib o i w c = some (r,w')) :
    w'.db.Keyed ∧ ∀ id, HasHash h id w.db → HasHash h id w'.db := by
  by_cases hs : o.isSql = true
  · cases o with
    | sql t =>
      have ht : ∀ id, t ≠ .deleteFile id := by
        rintro id rfl
        simp [Op.unlinking] at ho
      rcases execute_sql hx with ⟨_,db,he,rfl⟩ | ⟨_,_,rfl⟩
      · have hdb : db = (t.exec w.db).2 := by rw [he]
        subst hdb
        exact ⟨keyed_exec hk t,fun id hn => hasHash_exec ht hn⟩
      · exact ⟨hk,fun _ hn => hn⟩
    | _ => simp [Op.isSql] at hs
  · rw [execute_db (by simpa using hs) hx]
    exact ⟨hk,fun _ hn => hn⟩

theorem linking_unlinking {p : Server α} {Q : α → World ι × (ι → Touched) → Prop}
    (hp : p.Uses fun o => o.unlinking = true) (hl : Linked dir h i s)
    (hQ : ∀ a s', Linked dir h i s' → (∀ id, HasHash h id s.1.db → HasHash h id s'.1.db) → Q a s') :
    Linking lib i p Q s := by
  induction p generalizing s with
  | ret a => exact hQ a s hl fun _ hn => hn
  | op o k ih =>
    intro c r s' _ hx
    obtain ⟨hx,hr⟩ := recorded_exec hx
    obtain ⟨hk,hn⟩ := unlinking_db (h := h) hp.1 hl.keyed hx
    obtain ⟨hd,hh⟩ := execute_announced hx
    have hsame : s'.2 i = s.2 i := by rw [hr,update_self,note_unlinking hp.1]
    refine ih r (hp.2 r) ⟨hd.trans hl.storeDir,by rw [hh,hl.hello],hk,?_,?_⟩
      fun a t ht hnt => hQ a t ht fun id hid => hnt id (hn id hid)
    · rw [hsame]
      exact hl.opened
    · rw [hsame]
      exact fun id hid => hn id (hl.rows id hid)

theorem linking_bind {p : Server α} {f : α → Server β} {Q : β → World ι × (ι → Touched) → Prop}
    (hp : Linking lib i p (fun a s' => Linking lib i (f a) Q s') s) :
    Linking lib i (p >>= f) Q s :=
  (Machine.wlp_bind p f Q s).mpr hp

theorem linking_find (hh : Hex.IsHash h) {f : Option (ℕ × ℤ) → Server α}
    {Q : α → World ι × (ι → Touched) → Prop} (hl : Linked dir h i s)
    (hnone : ∀ s', Linked dir h i s' → Linking lib i (f none) Q s')
    (hsome : ∀ s' id size, Linked dir h i s' → HasHash h id s'.1.db →
      Linking lib i (f (some (id,size))) Q s') :
    Linking lib i (daoFileFindBySha256 h >>= f) Q s := by
  refine linking_op (o := .sql (.fileBySha256 h)) fun c r w' hx => ?_
  rw [note_unlinking rfl,update_eq_self]
  rcases execute_sql hx with ⟨_,db,he,rfl⟩ | ⟨_,rfl,rfl⟩
  · obtain ⟨bs,_,hbs,hf⟩ := Statement.exec_fileBySha256 hh s.1.db
    rw [hf] at he
    obtain ⟨rfl,rfl⟩ := Prod.mk.inj he
    cases hr : s.1.db.fileOf bs with
    | none => exact hnone _ hl
    | some row =>
      obtain ⟨hm,hb⟩ := fileOf_some hr
      exact hsome _ _ _ hl ⟨row,hm,rfl,by rw [hb,hbs]⟩
  · exact hnone _ hl

theorem linked_touch {db : Db} {x : Touched} (hl : Linked dir h i s) (hk : db.Keyed)
    (hn : ∀ id, HasHash h id s.1.db → HasHash h id db) (ho : x.opened = (s.2 i).opened)
    (hr : ∀ id ∈ x.rows, id ∈ (s.2 i).rows ∨ HasHash h id db) :
    Linked dir h i ({ s.1 with db := db },update s.2 i x) where
  storeDir := hl.storeDir
  hello := hl.hello
  keyed := hk
  opened := by
    simp only [update_self,ho]
    exact hl.opened
  rows := by
    intro id hid
    simp only [update_self] at hid
    rcases hr id hid with hold | hnew
    · exact hn id (hl.rows id hold)
    · exact hnew

theorem linking_insert (hh : Hex.IsHash h) {size : ℤ} {f : Bool → Server α}
    {Q : α → World ι × (ι → Touched) → Prop} (hl : Linked dir h i s)
    (hf : ∀ r s', Linked dir h i s' → Linking lib i (f r) Q s') :
    Linking lib i (sql (.insertFile h size) >>= f) Q s := by
  refine linking_op (o := .sql (.insertFile h size)) fun c r w' hx => ?_
  rcases execute_sql hx with ⟨_,db,he,rfl⟩ | ⟨_,rfl,rfl⟩
  · have hk : db.Keyed := by
      have hkeyed := keyed_exec hl.keyed (.insertFile h size)
      rwa [he] at hkeyed
    obtain ⟨bs,_,hbs,hins⟩ := Statement.exec_insertFile hh s.1.db size
    rw [hins] at he
    split at he
    · obtain ⟨rfl,rfl⟩ := Prod.mk.inj he
      exact hf _ _ (linked_touch hl hk (fun _ hn => hn) rfl fun id hid => .inl hid)
    · obtain ⟨rfl,rfl⟩ := Prod.mk.inj he
      refine hf _ _ (linked_touch hl hk ?_ rfl ?_)
      · rintro id ⟨r,hr,hid⟩
        exact ⟨r,List.mem_append_left _ hr,hid⟩
      · intro id hid
        rcases List.mem_append.mp hid with hold | hnew
        · exact .inl hold
        · obtain rfl := List.mem_singleton.mp hnew
          exact .inr ⟨_,List.mem_append_right _ (List.mem_singleton_self _),rfl,hbs⟩
  · exact hf _ _ (linked_touch hl hl.keyed (fun _ hn => hn) rfl fun id hid => .inl hid)

theorem linking_link {t : Statement} {id : ℕ} {f : t.Res → Server α}
    {Q : α → World ι × (ι → Touched) → Prop} (ht : ∀ id, t ≠ .deleteFile id)
    (hnote : ∀ r (w : World ι) x, (Touched.note (.sql t) r w x).opened = x.opened ∧
      ∀ j ∈ (Touched.note (.sql t) r w x).rows, j ∈ x.rows ∨ j = id)
    (hl : Linked dir h i s) (hid : HasHash h id s.1.db)
    (hf : ∀ r s', Linked dir h i s' → HasHash h id s'.1.db → Linking lib i (f r) Q s') :
    Linking lib i (sql t >>= f) Q s := by
  refine linking_op (o := .sql t) fun c r w' hx => ?_
  obtain ⟨hopened,hrows⟩ := hnote r s.1 (s.2 i)
  obtain ⟨db,hk,hn,rfl⟩ : ∃ db : Db, db.Keyed ∧ (∀ j, HasHash h j s.1.db → HasHash h j db) ∧
      w' = { s.1 with db := db } := by
    rcases execute_sql hx with ⟨_,db,he,rfl⟩ | ⟨_,_,rfl⟩
    · have hdb : db = (t.exec s.1.db).2 := by rw [he]
      subst hdb
      exact ⟨_,keyed_exec hl.keyed t,fun j hj => hasHash_exec ht hj,rfl⟩
    · exact ⟨_,hl.keyed,fun j hj => hj,rfl⟩
  refine hf _ _ (linked_touch hl hk hn hopened fun j hj => ?_) (hn id hid)
  rcases hrows j hj with hold | rfl
  · exact .inl hold
  · exact .inr (hn _ hid)

omit [DecidableEq ι] in
theorem note_createFileNode {userId : ℤ} {path : Text} {parentId : ℕ} {name : Text} {id : ℕ}
    (r : Bool) (w : World ι) (x : Touched) :
    (Touched.note (.sql (.createFileNode userId path parentId name id)) r w x).opened = x.opened ∧
      ∀ j ∈ (Touched.note (.sql (.createFileNode userId path parentId name id)) r w x).rows,
        j ∈ x.rows ∨ j = id := by
  cases r with
  | false => exact ⟨rfl,fun j hj => .inl hj⟩
  | true => exact ⟨rfl,fun j hj => by simpa [Touched.note] using hj⟩

omit [DecidableEq ι] in
theorem note_addRefCount {id : ℕ} (r : Bool) (w : World ι) (x : Touched) :
    (Touched.note (.sql (.addRefCount id)) r w x).opened = x.opened ∧
      ∀ j ∈ (Touched.note (.sql (.addRefCount id)) r w x).rows, j ∈ x.rows ∨ j = id := by
  cases r with
  | false => exact ⟨rfl,fun j hj => .inl hj⟩
  | true => exact ⟨rfl,fun j hj => by simpa [Touched.note] using hj⟩

theorem linking_createUserFileLink {ctx : ClientContext} {fullPath fileName : Text} {fileId : ℕ}
    {needAddRef : Bool} {Q : Bool → World ι × (ι → Touched) → Prop} (hl : Linked dir h i s)
    (hid : HasHash h fileId s.1.db)
    (hQ : ∀ r s', Linked dir h i s' → HasHash h fileId s'.1.db → Q r s') :
    Linking lib i (createUserFileLink ctx fullPath fileName fileId needAddRef) Q s := by
  refine linking_link (by simp) note_createFileNode hl hid fun r s₁ h₁ hid₁ => ?_
  cases r with
  | false => exact hQ false s₁ h₁ hid₁
  | true =>
    cases needAddRef with
    | false => exact hQ true s₁ h₁ hid₁
    | true => exact linking_link (f := .ret) (by simp) note_addRefCount h₁ hid₁ hQ

variable (lib i dir h) in
/-- A program that keeps what is linked, from wherever it is started. -/
def Keeps (p : Server α) : Prop :=
  ∀ s, Linked dir h i s → Linking lib i p (fun _ s' => Linked dir h i s') s

theorem keeps_pure (a : α) : Keeps lib i dir h (pure a : Server α) := fun _ hl => hl

theorem keeps_uses {p : Server α} (hp : p.Uses fun o => o.unlinking = true) :
    Keeps lib i dir h p :=
  fun _ hl => linking_unlinking hp hl fun _ _ ht _ => ht

theorem keeps_bind {p : Server α} {f : α → Server β} (hp : Keeps lib i dir h p)
    (hf : ∀ a, Keeps lib i dir h (f a)) : Keeps lib i dir h (p >>= f) :=
  fun s hl => linking_bind (Machine.wlp_mono s (fun a t ht => hf a t ht) (hp s hl))

theorem keeps_perform {o : Op} {f : o.Res → Server α} (ho : o.unlinking = true)
    (hf : ∀ r, Keeps lib i dir h (f r)) : Keeps lib i dir h (perform o >>= f) :=
  keeps_bind (keeps_uses ⟨ho,fun _ => trivial⟩) hf

theorem keeps_reply (msg : Text) : Keeps lib i dir h (sendMsg msg) :=
  keeps_uses ⟨rfl,fun _ => trivial⟩

theorem keeps_close : Keeps lib i dir h close := keeps_uses ⟨rfl,fun _ => trivial⟩

theorem keeps_registerSource (fileId : ℕ) : Keeps lib i dir h (registerSource fileId) := by
  refine keeps_bind (keeps_uses
    (getCurrentServerAddress_uses (fun o => o.unlinking = true) rfl _ _)) fun r => ?_
  rcases r with _ | ⟨ip,port⟩
  · exact keeps_pure _
  · unfold daoFileSourceUpsert
    dsimp only
    split
    · exact keeps_pure _
    · exact keeps_uses ⟨rfl,fun _ => trivial⟩

theorem linking_linkUpload {ctx : ClientContext} {fullPath fileName : Text} {fileId : ℕ}
    {needAddRef : Bool} (hl : Linked dir h i s) (hid : HasHash h fileId s.1.db) :
    Linking lib i (linkUpload ctx fullPath fileName fileId needAddRef)
      (fun _ s' => Linked dir h i s') s := by
  refine linking_bind (linking_createUserFileLink hl hid fun r s₁ h₁ _ => ?_)
  cases r with
  | false => exact h₁
  | true => exact keeps_registerSource fileId s₁ h₁

theorem linking_fileInsert (hh : Hex.IsHash h) {size : ℤ} {f : Option ℕ → Server α}
    {Q : α → World ι × (ι → Touched) → Prop} (hl : Linked dir h i s)
    (hnone : ∀ s', Linked dir h i s' → Linking lib i (f none) Q s')
    (hsome : ∀ s' id, Linked dir h i s' → HasHash h id s'.1.db → Linking lib i (f (some id)) Q s') :
    Linking lib i (daoFileInsert h size >>= f) Q s := by
  unfold daoFileInsert
  rw [bind_assoc]
  refine linking_insert hh hl fun r s₁ h₁ => ?_
  cases r with
  | false => exact hnone s₁ h₁
  | true =>
    rw [if_pos rfl,bind_assoc]
    exact linking_find hh h₁ hnone fun s₂ id size h₂ hid => hsome s₂ id h₂ hid

theorem keeps_finishUploadDbWork (hh : Hex.IsHash h) (ctx : ClientContext)
    (fullPath fileName : Text) (size : ℤ) :
    Keeps lib i dir h (finishUploadDbWork ctx fullPath fileName h size) := by
  intro s hl
  refine linking_fileInsert hh hl (fun s₁ h₁ => ?_) fun s₁ id h₁ hid => linking_linkUpload h₁ hid
  exact linking_find hh h₁ (fun _ h₂ => h₂) fun _ id size h₂ hid => linking_linkUpload h₂ hid

theorem keeps_completeUpload (ctx : ClientContext) (fullPath fileName : Text)
    (packet : FilePacket) (hh : Hex.IsHash packet.hash) :
    Keeps lib i dir packet.hash (completeUpload ctx fullPath fileName packet) := by
  refine keeps_bind (keeps_finishUploadDbWork hh _ _ _ _) fun r => ?_
  cases r <;> exact keeps_bind (keeps_reply _) fun _ => keeps_close

theorem keeps_writeFileFull (buf : Content) (passes total : ℕ) :
    Keeps lib i dir h (writeFileFull buf passes total) := by
  induction passes generalizing total with
  | zero => exact keeps_pure _
  | succ passes ih =>
    unfold writeFileFull
    split
    · refine keeps_perform rfl fun n => ?_
      split
      · exact keeps_pure _
      · exact ih _
    · exact keeps_pure _

theorem keeps_receiveMapped (localSize remaining : ℤ) (passes k : ℕ) :
    Keeps lib i dir h (receiveMapped localSize remaining passes k) := by
  induction passes generalizing k with
  | zero => exact keeps_pure _
  | succ passes ih =>
    unfold receiveMapped
    split
    · refine keeps_perform rfl fun n => ?_
      split
      · exact keeps_pure _
      · exact ih _
    · exact keeps_pure _

theorem keeps_receiveBuffered (remaining : ℤ) (passes k : ℕ) :
    Keeps lib i dir h (receiveBuffered remaining passes k) := by
  induction passes generalizing k with
  | zero => exact keeps_pure _
  | succ passes ih =>
    unfold receiveBuffered
    split
    · refine keeps_perform rfl fun buf => ?_
      split
      · exact keeps_pure _
      · refine keeps_bind (keeps_writeFileFull buf _ _) fun done => ?_
        cases done with
        | false => exact keeps_pure _
        | true => exact ih _
    · exact keeps_pure _

theorem keeps_endUpload (ctx : ClientContext) (fullPath fileName : Text) (packet : FilePacket)
    (hh : Hex.IsHash packet.hash) (localSize : ℤ) (k : ℕ) :
    Keeps lib i dir packet.hash (endUpload ctx fullPath fileName packet localSize k) := by
  unfold endUpload
  split
  · exact keeps_perform rfl fun _ => keeps_bind (keeps_reply _) fun _ => keeps_close
  · exact keeps_completeUpload ctx fullPath fileName packet hh

theorem keeps_receiveContent (ctx : ClientContext) (fullPath fileName : Text)
    (packet : FilePacket) (hh : Hex.IsHash packet.hash) (localSize : ℤ) :
    Keeps lib i dir packet.hash (receiveContent ctx fullPath fileName packet localSize) := by
  have hreply : ∀ msg, Keeps lib i dir packet.hash (sendMsg msg >>= fun _ => close) :=
    fun msg => keeps_bind (keeps_reply msg) fun _ => keeps_close
  unfold receiveContent
  split
  · refine keeps_perform rfl fun done => ?_
    cases done with
    | false => exact hreply _
    | true =>
      exact keeps_bind (keeps_receiveMapped _ _ _ _) fun k =>
        keeps_endUpload ctx fullPath fileName packet hh localSize k
  · refine keeps_perform rfl fun done => ?_
    cases done with
    | false => exact hreply _
    | true =>
      refine keeps_bind (keeps_receiveBuffered _ _ _) fun r => ?_
      cases r with
      | none => exact hreply _
      | some k => exact keeps_endUpload ctx fullPath fileName packet hh localSize k

theorem keeps_resumeUpload (ctx : ClientContext) (arg fullPath fileName : Text)
    (packet : FilePacket) (hh : Hex.IsHash packet.hash) (localSize : ℤ) :
    Keeps lib i dir packet.hash (resumeUpload ctx arg fullPath fileName packet localSize) := by
  refine keeps_perform rfl fun sent => ?_
  cases sent with
  | false => exact keeps_close
  | true =>
    rw [if_pos rfl]
    split
    · exact keeps_completeUpload ctx fullPath fileName packet hh
    · refine keeps_perform rfl fun done => ?_
      cases done with
      | false => exact keeps_bind (keeps_reply _) fun _ => keeps_close
      | true =>
        rw [if_pos rfl]
        split
        · exact keeps_completeUpload ctx fullPath fileName packet hh
        · exact keeps_receiveContent ctx fullPath fileName packet hh localSize

theorem linking_openUpload {f : Bool → Server α} {Q : α → World ι × (ι → Touched) → Prop}
    (hl : Linked dir h i s) (hf : ∀ r s', Linked dir h i s' → Linking lib i (f r) Q s') :
    Linking lib i (perform (.openUpload (storePath dir h)) >>= f) Q s := by
  refine linking_op (o := .openUpload _) fun c opened w' hx => ?_
  have hdb := execute_db rfl hx
  obtain ⟨hd,hhello⟩ := execute_announced hx
  refine hf opened _ ⟨hd.trans hl.storeDir,by rw [hhello,hl.hello],by rw [hdb]; exact hl.keyed,?_,?_⟩
  · intro p hp
    cases opened with
    | false => exact hl.opened p (by simpa [Touched.note] using hp)
    | true =>
      have hcases : p ∈ (s.2 i).opened ∨ p = storePath dir h := by
        simpa [Touched.note] using hp
      exact hcases.elim (hl.opened p) id
  · intro id hid
    rw [hdb]
    refine hl.rows id ?_
    cases opened <;> simpa [Touched.note] using hid

theorem linking_buildStoreFilePath {f : Option Text → Server α}
    {Q : α → World ι × (ι → Touched) → Prop} (hl : Linked dir h i s)
    (hnone : Linking lib i (f none) Q s) (hsome : Linking lib i (f (some (storePath dir h))) Q s) :
    Linking lib i (buildStoreFilePath h >>= f) Q s := by
  refine linking_op (o := .storeDir) fun c r w' hx => ?_
  rw [note_unlinking rfl,update_eq_self]
  obtain ⟨hr,rfl⟩ := execute_storeDir hx
  rcases hr with rfl | rfl
  · change Linking lib i (f (bounded maxPathLen (s.1.node.storeDir ++ '/'::h))) Q s
    rw [hl.storeDir,bounded]
    split
    · exact hsome
    · exact hnone
  · exact hnone

theorem keeps_uploadContent (ctx : ClientContext) (arg fullPath fileName : Text)
    (packet : FilePacket) (hh : Hex.IsHash packet.hash) :
    Keeps lib i dir packet.hash (uploadContent ctx arg fullPath fileName packet) := by
  intro s hl
  refine linking_buildStoreFilePath hl (keeps_reply _ s hl) (linking_openUpload hl fun r s₁ h₁ => ?_)
  cases r with
  | false => exact keeps_reply _ s₁ h₁
  | true =>
    have hrest : Keeps lib i dir packet.hash (perform .fstat >>= fun st =>
        if packet.fileSize < st.getD 0 then do
          let _ ← perform (.ftruncate 0)
          resumeUpload ctx arg fullPath fileName packet 0
        else resumeUpload ctx arg fullPath fileName packet (st.getD 0)) := by
      refine keeps_perform rfl fun st => ?_
      split
      · exact keeps_perform rfl fun _ => keeps_resumeUpload ctx arg fullPath fileName packet hh _
      · exact keeps_resumeUpload ctx arg fullPath fileName packet hh _
    exact hrest s₁ h₁

theorem keeps_storeContent (ctx : ClientContext) (arg fullPath fileName : Text)
    (packet : FilePacket) (hh : Hex.IsHash packet.hash) :
    Keeps lib i dir packet.hash (storeContent ctx arg fullPath fileName packet) := by
  intro s hl
  refine linking_find hh hl (fun s₁ h₁ => keeps_uploadContent _ _ _ _ _ hh s₁ h₁)
    fun s₁ id size h₁ hid => linking_bind (linking_unlinking (checkStoreFileReady_uses
      (fun o => o.unlinking = true) rfl (fun _ => rfl) _ _) h₁ fun r s₂ h₂ hn => ?_)
  rcases r with _ | _ | _
  · exact keeps_reply _ s₂ h₂
  · exact keeps_uploadContent _ _ _ _ _ hh s₂ h₂
  · refine linking_bind (linking_createUserFileLink h₂ (hn id hid) fun r s₃ h₃ _ => ?_)
    cases r with
    | false => exact keeps_reply _ s₃ h₃
    | true => exact keeps_perform (f := fun _ => pure ()) rfl (fun _ => keeps_pure _) s₃ h₃

theorem keeps_handlePuts (hh : Hex.IsHash h) (ctx : ClientContext) (arg : Text) :
    Keeps lib i dir h (handlePuts ctx arg) := by
  intro s hl
  refine linking_op (o := .recvFile) fun c r w' hx => ?_
  rw [note_unlinking rfl,update_eq_self]
  obtain ⟨hr,rfl⟩ := execute_recvFile hx
  rcases hr with rfl | rfl
  · obtain rfl := hl.hello
    dsimp only
    split
    · exact keeps_reply _ s hl
    · refine linking_bind (linking_unlinking
        (strcpy_uses (fun o => o.unlinking = true) rfl _ _) hl fun fileName s₁ h₁ _ => ?_)
      split
      · refine linking_bind (linking_unlinking
          (getNodeByPath_uses (fun o => o.unlinking = true) (fun _ _ => rfl) _ _) h₁
            fun r s₂ h₂ _ => ?_)
        rcases r with _ | ⟨id,type⟩
        · dsimp only
          split
          · exact keeps_reply _ s₂ h₂
          · exact keeps_storeContent ctx arg _ fileName _ hh s₂ h₂
        · exact keeps_perform (f := fun _ => sendMsg _) rfl (fun _ => keeps_reply _) s₂ h₂
      · exact keeps_reply _ s₁ h₁
  · exact keeps_reply _ s hl

omit [DecidableEq ι] in
/-- A hash of 64 lower-case digits gives one name on both routes. -/
theorem namesAgree_linked (hh : Hex.IsHash h) (hl : Linked dir h i s) :
    NamesAgree dir (s.2 i) s.1.db := by
  intro p hp
  obtain rfl := hl.opened p hp
  refine ⟨⟨h,hh,rfl⟩,fun id hid ss h' size hrow => ?_⟩
  obtain ⟨r,hr,rfl,hsum⟩ := hl.rows id hid
  simp only [Statement.exec] at hrow
  obtain ⟨r',hr',he⟩ := Option.map_eq_some_iff.mp hrow
  obtain ⟨hm,hid'⟩ := fileWithId_some hr'
  obtain ⟨rfl,_⟩ := Prod.mk.inj he
  rw [after_hash hl.keyed hr hm hid',hsum]

end Linking

section Opening

variable {ι : Type} [DecidableEq ι] {lib : Library} {i : ι} {α : Type}
  {s : World ι × (ι → Touched)} {ctx : ClientContext} {arg : Text}

theorem linking_unopened {p : Server α} {Q : α → World ι × (ι → Touched) → Prop}
    (hp : p.Uses fun o => ∀ path, o ≠ .openUpload path)
    (hQ : ∀ a s', (s'.2 i).opened = (s.2 i).opened → s'.1.node.storeDir = s.1.node.storeDir →
      Q a s') : Linking lib i p Q s := by
  induction p generalizing s with
  | ret a => exact hQ a s rfl rfl
  | op o k ih =>
    intro c r s' _ hx
    obtain ⟨hx,hr⟩ := recorded_exec hx
    have hsame : (s'.2 i).opened = (s.2 i).opened := by
      rw [hr,update_self]
      cases o with
      | openUpload path => exact absurd rfl (hp.1 path)
      | sql t => cases t <;> simp only [Touched.note] <;> split <;> rfl
      | _ => rfl
    exact ih r (hp.2 r) fun a t ht hd => hQ a t (ht.trans hsame)
      (hd.trans (execute_announced hx).1)

theorem linking_strcpy {size : ℕ} {t : Text} {f : Text → Server α}
    {Q : α → World ι × (ι → Touched) → Prop} (hf : t.length < size → Linking lib i (f t) Q s) :
    Linking lib i (strcpy size t >>= f) Q s := by
  unfold strcpy
  split
  · rename_i hlt
    exact hf hlt
  · exact fun c r => r.elim

theorem linking_reply {msg : Text} (hs : (s.2 i).opened = []) :
    Linking lib i (sendMsg msg) (fun _ s' => (s'.2 i).opened = []) s :=
  linking_unopened ⟨nofun,fun _ => trivial⟩ fun _ _ ho _ => ho.trans hs

theorem linking_pathTooLong {h : Text} {f : Option Text → Server α}
    {Q : α → World ι × (ι → Touched) → Prop}
    (hlong : ¬ (storePath s.1.node.storeDir h).length < maxPathLen)
    (hnone : Linking lib i (f none) Q s) : Linking lib i (buildStoreFilePath h >>= f) Q s := by
  refine linking_op (o := .storeDir) fun c r w' hx => ?_
  rw [note_unlinking rfl,update_eq_self]
  obtain ⟨hr,rfl⟩ := execute_storeDir hx
  rcases hr with rfl | rfl
  · change Linking lib i (f (bounded maxPathLen (storePath s.1.node.storeDir h))) Q s
    rw [bounded,if_neg hlong]
    exact hnone
  · exact hnone

theorem linking_unreached {dir h : Text} (ho : ¬ OpensStoreFile ctx arg dir h)
    (hdir : s.1.node.storeDir = dir) (hh : (s.1.node.conn i).hello.hash = h)
    (hs : (s.2 i).opened = []) :
    Linking lib i (handlePuts ctx arg) (fun _ s' => (s'.2 i).opened = []) s := by
  refine linking_op (o := .recvFile) fun c r w' hx => ?_
  rw [note_unlinking rfl,update_eq_self]
  obtain ⟨hr,rfl⟩ := execute_recvFile hx
  rcases hr with rfl | rfl
  · dsimp only
    split
    · exact linking_reply hs
    · rename_i fullPath hfull
      refine linking_strcpy fun _ => ?_
      split
      · rename_i hvalid
        refine linking_bind (linking_unopened (getNodeByPath_uses _ (fun _ _ => nofun) _ _)
          fun r s₁ h₁ hd₁ => ?_)
        rcases r with _ | ⟨id,type⟩
        · dsimp only
          split
          · exact linking_reply (h₁.trans hs)
          · rename_i hne
            have hlong : ¬ (storePath dir h).length < maxPathLen := fun hlt =>
              ho ⟨hh ▸ hne,hlt,fullPath,hfull,hvalid⟩
            subst hh
            refine linking_bind (linking_unopened ⟨nofun,fun _ => trivial⟩ fun r s₂ h₂ hd₂ => ?_)
            rcases r with _ | ⟨id,size⟩
            · exact linking_pathTooLong (by rw [hd₂,hd₁,hdir]; exact hlong)
                (linking_reply (h₂.trans (h₁.trans hs)))
            · refine linking_bind (linking_unopened
                (checkStoreFileReady_uses _ nofun (fun _ => nofun) _ _) fun r s₃ h₃ hd₃ => ?_)
              have hs₃ := h₃.trans (h₂.trans (h₁.trans hs))
              rcases r with _ | _ | _
              · exact linking_reply hs₃
              · exact linking_pathTooLong (by rw [hd₃,hd₂,hd₁,hdir]; exact hlong) (linking_reply hs₃)
              · exact linking_unopened (instantUpload_uses _ (fun _ _ => nofun) (fun _ => nofun)
                  (fun _ => nofun) _ _ _) fun _ _ ho _ => ho.trans hs₃
        · exact linking_unopened ⟨nofun,fun _ => ⟨nofun,fun _ => trivial⟩⟩
            fun _ _ ho _ => ho.trans (h₁.trans hs)
      · exact linking_reply hs
  · exact linking_reply hs

abbrev Opens (lib : Library) (i : ι) (p : Server α) (Q : World ι × (ι → Touched) → Prop)
    (s : World ι × (ι → Touched)) : Prop :=
  ((server ι lib).recorded Touched.note).can (fun _ _ _ => True) i p (fun _ => Q) s

theorem opens_op {o : Op} {f : o.Res → Server α} {Q : World ι × (ι → Touched) → Prop} (c : Choice)
    {r : o.Res} {w' : World ι} (hx : execute lib o i s.1 c = some (r,w'))
    (hf : Opens lib i (f r) Q (w',update s.2 i (Touched.note o r s.1 (s.2 i)))) :
    Opens lib i (perform o >>= f) Q s :=
  ⟨c,r,_,trivial,by simp [Machine.recorded,hx],hf⟩

theorem opens_buildStoreFilePath {h : Text} {f : Option Text → Server α}
    {Q : World ι × (ι → Touched) → Prop}
    (hlt : (storePath s.1.node.storeDir h).length < maxPathLen)
    (hf : Opens lib i (f (some (storePath s.1.node.storeDir h))) Q s) :
    Opens lib i (buildStoreFilePath h >>= f) Q s := by
  refine opens_op (o := .storeDir) .ok rfl ?_
  rw [note_unlinking rfl,update_eq_self]
  change Opens lib i (f (bounded maxPathLen (storePath s.1.node.storeDir h))) Q s
  rw [bounded,if_pos hlt]
  exact hf

theorem fullVirtualPath_ne_root {size : ℕ} {fullPath : Text}
    (h : buildFullVirtualPath size ctx arg = some fullPath) : fullPath ≠ "/".toList := by
  unfold buildFullVirtualPath at h
  split at h
  · rename_i hc
    obtain ⟨rfl,_⟩ := bounded_eq_some.mp h
    have harg : arg ≠ [] := by
      rintro rfl
      simp [checkArgPath] at hc
    obtain ⟨x,t,rfl⟩ := List.exists_cons_of_ne_nil harg
    split
    · simp
    · intro he
      have hlen := congrArg List.length he
      simp only [List.length_append,List.length_cons] at hlen
      have h1 : "/".toList.length = 1 := by decide
      omega
  · cases h

theorem opens_resumeUpload {p fullPath fileName : Text} {packet : FilePacket} {localSize : ℤ}
    (hp : p ∈ (s.2 i).opened) :
    Opens lib i (resumeUpload ctx arg fullPath fileName packet localSize)
      (fun s' => p ∈ (s'.2 i).opened) s := by
  refine opens_op (o := .send _) .fault rfl ?_
  refine opens_op (o := .close) (f := .ret) .ok rfl ?_
  simpa [Touched.note,Opens,Machine.can] using hp

/-- Whenever it can, an upload opens the store file of its packet's hash. -/
theorem opens_handlePuts
    (ho : OpensStoreFile ctx arg s.1.node.storeDir (s.1.node.conn i).hello.hash) :
    Opens lib i (handlePuts ctx arg)
      (fun s' => storePath s.1.node.storeDir (s.1.node.conn i).hello.hash ∈ (s'.2 i).opened) s := by
  obtain ⟨hne,hlt,fullPath,hfull,hvalid⟩ := ho
  have hname : (baseName fullPath).length < 256 := by
    have hv : (baseName fullPath).length ≠ 0 ∧ (baseName fullPath).length ≤ maxVfsNameLen := by
      simpa [isValidVfsName] using hvalid
    have hmax : maxVfsNameLen = 30 := rfl
    omega
  refine opens_op (o := .recvFile) .ok rfl ?_
  rw [note_unlinking rfl,update_eq_self]
  simp only [hfull,extractFileName,strcpy,if_pos hname,Program.pure_eq,Program.ret_bind,
    if_pos hvalid,daoGetNodeByPath,if_neg (fullVirtualPath_ne_root hfull)]
  refine opens_op (o := .sql _) .fault rfl ?_
  rw [note_unlinking rfl,update_eq_self]
  simp only [Statement.failed,if_neg hne]
  refine opens_op (o := .sql _) .fault rfl ?_
  rw [note_unlinking rfl,update_eq_self]
  simp only [Statement.failed]
  refine opens_buildStoreFilePath hlt ?_
  refine opens_op (o := .openUpload _) .ok rfl ?_
  rw [if_pos rfl]
  refine opens_op (o := .fstat) .fault rfl ?_
  split
  · refine opens_op (o := .ftruncate 0) .fault rfl ?_
    exact opens_resumeUpload (by simp [Touched.note])
  · exact opens_resumeUpload (by simp [Touched.note])

end Opening

/-- Uploads open only store files named by a hash, and link only rows that name
the same file, exactly when the packet carries a hash of 64 lower-case digits;
or when the upload cannot come to open its file. -/
theorem store_names_agree_iff {ι : Type} [DecidableEq ι] (lib : Library) (ctx : ClientContext)
    (arg : Text) (i : ι) (w : World ι) (hw : w.db.Keyed) :
    (∀ cs w' x, ((server ι lib).recorded Touched.note).Exec (fun _ _ _ => True) i
        (handlePuts ctx arg) (w,fun _ => .none) cs () (w',x) →
      NamesAgree w.node.storeDir (x i) w'.db) ↔
      (Hex.IsHash (w.node.conn i).hello.hash ∨
        ¬ OpensStoreFile ctx arg w.node.storeDir (w.node.conn i).hello.hash) := by
  constructor
  · intro hall
    by_contra hcon
    obtain ⟨hh,hopen⟩ := not_or.mp hcon
    have hcan := @opens_handlePuts ι _ lib i (w,fun _ => .none) ctx arg (not_not.mp hopen)
    obtain ⟨cs,a,⟨w',x⟩,hrun,hmem⟩ := Machine.can_exec hcan
    obtain ⟨⟨h,hhash,he⟩,_⟩ := hall cs w' x hrun _ hmem
    exact hh (storePath_injective he ▸ hhash)
  · rintro (hh | hopen) cs w' x hrun
    · have hl : Linked w.node.storeDir (w.node.conn i).hello.hash i (w,fun _ => .none) :=
        ⟨rfl,rfl,hw,by simp [Touched.none],by simp [Touched.none]⟩
      exact namesAgree_linked hh (Machine.exec_wlp (Q := fun _ s => Linked _ _ i s) hrun
        (keeps_handlePuts hh ctx arg _ hl))
    · have hnone : (x i).opened = [] := Machine.exec_wlp (Q := fun _ s => (s.2 i).opened = [])
        hrun (linking_unreached hopen rfl rfl rfl)
      intro p hp
      rw [hnone] at hp
      cases hp

namespace TwoUploads

def upperHash : Text :=
  "FB8E20FC2E4C3F248C60C39BD652F3C1347298BB977B8B4D5903B85055620603".toList

/-- A client that writes its hash in capital digits. -/
def shouting : World Unit where
  db := .empty
  minted := []
  drawn := []
  node := (world Unit).node.setConn () { client with hello := ⟨.puts,2,0,"a".toList,upperHash⟩ }

def completed : List Choice :=
  List.replicate 9 .ok ++ [.count 2,.count 2] ++ List.replicate 7 .ok

end TwoUploads

open TwoUploads

theorem single_upload_names_agree :
    ∃ w' x, ((server Unit lib).recorded Touched.note).Exec (fun _ _ _ => True) ()
        (handlePuts ⟨1,"/".toList,0⟩ "a".toList) (world Unit,fun _ => .none) completed () (w',x) ∧
      (x ()).opened = [uploadPath () (world Unit)] ∧ (x ()).rows = [1,1] ∧
      NamesAgree (world Unit).node.storeDir (x ()) w'.db := by
  have h : (((server Unit lib).recorded Touched.note).run ()
      (handlePuts ⟨1,"/".toList,0⟩ "a".toList) (world Unit,fun _ => .none) completed).map
      (fun r => r.2.2 ()) = some ⟨[uploadPath () (world Unit)],[1,1]⟩ := by decide +kernel
  obtain ⟨⟨u,w',x⟩,hrun,ho⟩ := Option.map_eq_some_iff.mp h
  have hx := Machine.run_exec hrun
  exact ⟨w',x,hx,congrArg Touched.opened ho,congrArg Touched.rows ho,
    (store_names_agree_iff lib _ _ () (world Unit) empty_keyed).mpr (.inl honest.hash) _ _ _ hx⟩

theorem upper_case_names_differ :
    ¬ ∀ (ι : Type) [DecidableEq ι] (lib : Library) (ctx : ClientContext) (arg : Text) (i : ι)
      (w : World ι), w.db.Keyed → ∀ cs w' x,
        ((server ι lib).recorded Touched.note).Exec (fun _ _ _ => True) i
            (handlePuts ctx arg) (w,fun _ => .none) cs () (w',x) →
          NamesAgree w.node.storeDir (x i) w'.db := by
  intro hall
  have h : (((server Unit lib).recorded Touched.note).run ()
      (handlePuts ⟨1,"/".toList,0⟩ "a".toList) (shouting,fun _ => .none) completed).map
      (fun r => r.2.2 ()) = some ⟨[uploadPath () shouting],[1,1]⟩ := by decide +kernel
  obtain ⟨⟨u,w',x⟩,hrun,ho⟩ := Option.map_eq_some_iff.mp h
  have hmem : uploadPath () shouting ∈ (x ()).opened := by
    rw [show x () = ⟨[uploadPath () shouting],[1,1]⟩ from ho]
    exact List.mem_singleton_self _
  obtain ⟨⟨h',hh,he⟩,_⟩ := hall Unit lib _ _ () shouting empty_keyed _ w' x
    (Machine.run_exec hrun) _ hmem
  obtain rfl : upperHash = h' := storePath_injective he
  exact absurd hh (by decide +kernel)

end WindCloud
