import WindCloud.Server.NodePaths
import WindCloud.Server.TableOps

/-!
# What an upload does to the tables

With nothing else running an upload leaves the tables alone, or links its node
to the row of its hash and may then enter the server as a source. It unlinks no
file.
-/

set_option autoImplicit false

namespace WindCloud
open CString Hex Effect

/-- The session and the name a transfer starts from, as the tables have them. -/
def Db.transferContext (db : Db) (userId : ℤ) (fullPath : Text) : Option (ClientContext × Text) :=
  match splitFullPath fullPath 256 fileNameLen with
  | none => none
  | some (parent,fileName) =>
    if parent = "/".toList then some (⟨userId,parent.take 255,0⟩,fileName)
    else
      match db.lookup userId parent with
      | none => none
      | some (dirId,nodeType) =>
        if nodeType ≠ 1 then none else some (⟨userId,parent.take 255,dirId⟩,fileName)

/-- The node an upload creates, for the content with this hash. -/
def Db.upload (db : Db) (ctx : ClientContext) (arg : Text) (bs : List ℕ) (size : ℤ) : Db :=
  db.link ctx.userId (absPath ctx.currentPath arg) ctx.currentDirId
    (baseName (absPath ctx.currentPath arg)) bs size

/-- An argument that names one new node in the session's directory. -/
structure Uploadable (db : Db) (ctx : ClientContext) (arg : Text) : Prop where
  single : checkArgPath arg = true ∧ '/' ∉ arg
  vacant : db.vacant ctx arg = true

inductive Uploaded (db : Db) (ctx : ClientContext) (arg : Text) (bs : List ℕ) (size : ℤ) : Db → Prop
  | kept : Uploaded db ctx arg bs size db
  | linked (new : Uploadable db ctx arg) : Uploaded db ctx arg bs size (db.upload ctx arg bs size)
  | registered (new : Uploadable db ctx arg) (fileId : ℕ) (ip port : Text) :
      Uploaded db ctx arg bs size ((db.upload ctx arg bs size).putSource fileId ip port)

section Rules

variable {ι : Type} [DecidableEq ι] {lib : Library} {ok : Op → World ι → Choice → Prop} {i : ι}
  {α β : Type} {db : Db} {ctx : ClientContext} {arg : Text} {bs : List ℕ} {size : ℤ}

/-- From these tables on the program ends as an upload does. -/
def Uploading (lib : Library) (ok : Op → World ι → Choice → Prop) (i : ι) (db : Db)
    (ctx : ClientContext) (arg : Text) (bs : List ℕ) (size : ℤ) (p : Server α) : Prop :=
  ∀ w : World ι, w.db = db → Solo lib ok i p (fun _ w' => Uploaded db ctx arg bs size w'.db ∧
    w'.node.unlinked = w.node.unlinked ∧ w'.node.storeDir = w.node.storeDir) w

theorem uploading_tableless {p : Server α} (hp : Tableless p) :
    Uploading lib ok i db ctx arg bs size p := by
  intro w hw
  refine solo_tableless hp fun _ w' h => ⟨?_,h.unlinked,h.storeDir⟩
  rw [h.db,hw]
  exact .kept

theorem uploading_before {p : Server α} {f : α → Server β} (hp : Tableless p)
    (hf : ∀ a, Uploading lib ok i db ctx arg bs size (f a)) :
    Uploading lib ok i db ctx arg bs size (p >>= f) := by
  intro w hw
  refine solo_before hp fun a w₁ h => ?_
  refine Machine.wlp_mono _ ?_ (hf a w₁ (h.db.trans hw))
  rintro b w' ⟨hdb,hu,hd⟩
  exact ⟨hdb,hu.trans h.unlinked,hd.trans h.storeDir⟩

theorem uploading_reply (msg : Text) : Uploading lib ok i db ctx arg bs size (sendMsg msg) :=
  uploading_tableless ⟨rfl,fun _ => trivial⟩

theorem uploading_perform {o : Op} {f : o.Res → Server β} (ho : o.tableless = true)
    (hf : ∀ a, Uploading lib ok i db ctx arg bs size (f a)) :
    Uploading lib ok i db ctx arg bs size (perform o >>= f) :=
  uploading_before ⟨ho,fun _ => trivial⟩ hf

end Rules

section Tables

variable {ι : Type} [DecidableEq ι] {lib : Library} {ok : Op → World ι → Choice → Prop} {i : ι}
  {ctx : ClientContext} {path fileName : Text} {w : World ι}

/-- These tables, with at most one source more, and nothing unlinked. -/
def LeadsSourced (w : World ι) (db : Db) (w' : World ι) : Prop :=
  (w'.db = db ∨ ∃ fileId ip port, w'.db = db.putSource fileId ip port) ∧
    w'.node.unlinked = w.node.unlinked ∧ w'.node.storeDir = w.node.storeDir

theorem solo_registerSource (hok : StatementsHold ok) (fileId : ℕ) :
    Solo lib ok i (registerSource fileId) (fun _ => LeadsSourced w w.db) w := by
  refine solo_before (getCurrentServerAddress_uses (fun o => o.tableless = true) rfl _ _)
    fun r w₁ h => ?_
  rcases r with _ | ⟨ip,port⟩
  · exact ⟨.inl h.db,h.unlinked,h.storeDir⟩
  · unfold daoFileSourceUpsert
    dsimp only
    split
    · exact ⟨.inl h.db,h.unlinked,h.storeDir⟩
    · have hupsert : Solo lib ok i (sql (.upsertSource fileId ip port) >>= Program.ret)
          (fun _ => LeadsSourced w w.db) w₁ := by
        refine solo_sql hok ⟨.inr ⟨fileId,ip,port,?_⟩,h.unlinked,h.storeDir⟩
        rw [← h.db]
        rfl
      rwa [Program.bind_ret] at hupsert

theorem solo_finishUpload (hok : StatementsHold ok) {h : Text} {bs : List ℕ} {size : ℤ}
    (hh : IsHash h) (hb : unhex h = some bs) (hn : w.db.nodeAt ctx.userId path = none) :
    Solo lib ok i (finishUploadDbWork ctx path fileName h size)
      (fun _ => LeadsSourced w (w.db.link ctx.userId path ctx.currentDirId fileName bs size)) w := by
  have hregister : ∀ fileId (w₁ : World ι),
      w₁.db = w.db.link ctx.userId path ctx.currentDirId fileName bs size → w₁.node = w.node →
      Solo lib ok i (registerSource fileId)
        (fun _ => LeadsSourced w (w.db.link ctx.userId path ctx.currentDirId fileName bs size)) w₁ := by
    intro fileId w₁ hdb hnode
    refine Machine.wlp_mono _ ?_ (solo_registerSource hok fileId)
    rintro _ w' ⟨hsource,hu,hd⟩
    rw [hnode] at hu hd
    rw [hdb] at hsource
    exact ⟨hsource,hu,hd⟩
  refine solo_fileInsert hok hh hb ?_ ?_
  · intro hold
    obtain ⟨r,hr⟩ := Option.isSome_iff_exists.mp hold
    refine solo_findHash hok hh hb ?_
    rw [hr]
    refine solo_linkRow hok hn ?_
    exact hregister r.id _ (by simp [Db.link,hr]) rfl
  · intro hnew
    change Solo lib ok i (linkUpload ctx path fileName w.db.nextFile false) _
      { w with db := w.db.addFile bs size }
    unfold linkUpload createUserFileLink
    rw [Program.bind_bind]
    refine solo_linkNew (w := { w with db := w.db.addFile bs size }) hok hn ?_
    exact hregister w.db.nextFile _ (by simp [Db.link,hnew]) rfl

end Tables

section Handlers

variable {ι : Type} [DecidableEq ι] {lib : Library} {ok : Op → World ι → Choice → Prop} {i : ι}
  {db : Db} {ctx : ClientContext} {arg fullPath fileName : Text} {bs : List ℕ}
  {packet : FilePacket}

theorem uploading_complete (hok : StatementsHold ok) (hnew : Uploadable db ctx arg)
    (hh : IsHash packet.hash) (hb : unhex packet.hash = some bs) :
    Uploading lib ok i db ctx arg bs packet.fileSize
      (completeUpload ctx (absPath ctx.currentPath arg) (baseName (absPath ctx.currentPath arg))
        packet) := by
  intro w hw
  obtain ⟨-,-,-,hn⟩ := vacant_true hnew.vacant
  rw [← hw] at hn
  refine solo_bind (Machine.wlp_mono _ ?_ (solo_finishUpload hok hh hb hn))
  rintro done w₁ ⟨hdb,hu,hd⟩
  rw [hw] at hdb
  have hend : ∀ msg, Solo lib ok i (sendMsg msg >>= fun _ => close) (fun _ w' =>
      Uploaded db ctx arg bs packet.fileSize w'.db ∧ w'.node.unlinked = w.node.unlinked ∧
        w'.node.storeDir = w.node.storeDir) w₁ := by
    intro msg
    refine solo_tableless ⟨rfl,fun _ => ⟨rfl,fun _ => trivial⟩⟩ fun _ w' h => ?_
    refine ⟨?_,h.unlinked.trans hu,h.storeDir.trans hd⟩
    rw [h.db]
    rcases hdb with he | ⟨fileId,ip,port,he⟩
    · rw [he]
      exact .linked hnew
    · rw [he]
      exact .registered hnew fileId ip port
  cases done <;> exact hend _

theorem tableless_close : Tableless close := ⟨rfl,fun _ => trivial⟩

theorem uploading_refuse (msg : Text) :
    Uploading lib ok i db ctx arg bs packet.fileSize (sendMsg msg >>= fun _ => close) :=
  uploading_before ⟨rfl,fun _ => trivial⟩ fun _ => uploading_tableless tableless_close

theorem writeFileFull_uses (allowed : Op → Prop) (h : ∀ buf, allowed (.write buf)) (buf : Content)
    (passes total : ℕ) : (writeFileFull buf passes total).Uses allowed := by
  induction passes generalizing total with
  | zero => trivial
  | succ passes ih =>
    unfold writeFileFull
    split
    · refine ⟨h _,fun (ret : ℕ) => ?_⟩
      simp only [Program.bind]
      split
      · trivial
      · exact ih _
    · trivial

theorem receiveMapped_uses (allowed : Op → Prop) (h : ∀ pos once, allowed (.recvMapped pos once))
    (localSize remaining : ℤ) (passes k : ℕ) :
    (receiveMapped localSize remaining passes k).Uses allowed := by
  induction passes generalizing k with
  | zero => trivial
  | succ passes ih =>
    unfold receiveMapped
    split
    · refine ⟨h _ _,fun (ret : ℕ) => ?_⟩
      simp only [Program.bind]
      split
      · trivial
      · exact ih _
    · trivial

theorem receiveBuffered_uses (allowed : Op → Prop) (h : ∀ once, allowed (.recv once))
    (hw : ∀ buf, allowed (.write buf)) (remaining : ℤ) (passes k : ℕ) :
    (receiveBuffered remaining passes k).Uses allowed := by
  induction passes generalizing k with
  | zero => trivial
  | succ passes ih =>
    unfold receiveBuffered
    split
    · refine ⟨h _,fun (buf : Content) => ?_⟩
      simp only [Program.bind]
      split
      · trivial
      · refine Program.uses_bind _ _ (writeFileFull_uses allowed hw buf _ _) fun done => ?_
        cases done with
        | false => trivial
        | true => exact ih _
    · trivial

theorem tableless_receiveMapped (localSize remaining : ℤ) (passes k : ℕ) :
    Tableless (receiveMapped localSize remaining passes k) :=
  receiveMapped_uses (fun o => o.tableless = true) (fun _ _ => rfl) localSize remaining passes k

theorem tableless_receiveBuffered (remaining : ℤ) (passes k : ℕ) :
    Tableless (receiveBuffered remaining passes k) :=
  receiveBuffered_uses (fun o => o.tableless = true) (fun _ => rfl) (fun _ => rfl) remaining passes k

section Content

variable (hok : StatementsHold ok) (hnew : Uploadable db ctx arg) (hh : IsHash packet.hash)
  (hb : unhex packet.hash = some bs)

include hok hnew hh hb

theorem uploading_end (localSize : ℤ) (k : ℕ) :
    Uploading lib ok i db ctx arg bs packet.fileSize
      (endUpload ctx (absPath ctx.currentPath arg) (baseName (absPath ctx.currentPath arg)) packet
        localSize k) := by
  unfold endUpload
  split
  · exact uploading_perform rfl fun _ => uploading_refuse _
  · exact uploading_complete hok hnew hh hb

theorem uploading_receive (localSize : ℤ) :
    Uploading lib ok i db ctx arg bs packet.fileSize
      (receiveContent ctx (absPath ctx.currentPath arg) (baseName (absPath ctx.currentPath arg))
        packet localSize) := by
  unfold receiveContent
  split
  · refine uploading_perform rfl fun done => ?_
    cases (done : Bool) with
    | false => exact uploading_refuse _
    | true => exact uploading_before (tableless_receiveMapped _ _ _ _) fun k =>
        uploading_end hok hnew hh hb localSize k
  · refine uploading_perform rfl fun done => ?_
    cases (done : Bool) with
    | false => exact uploading_refuse _
    | true =>
      refine uploading_before (tableless_receiveBuffered _ _ _) fun r => ?_
      cases r with
      | none => exact uploading_refuse _
      | some k => exact uploading_end hok hnew hh hb localSize k

theorem uploading_resume (localSize : ℤ) :
    Uploading lib ok i db ctx arg bs packet.fileSize
      (resumeUpload ctx arg (absPath ctx.currentPath arg) (baseName (absPath ctx.currentPath arg))
        packet localSize) := by
  refine uploading_perform rfl fun done => ?_
  cases (done : Bool) with
  | false => exact uploading_tableless tableless_close
  | true =>
    simp only [if_true]
    split
    · exact uploading_complete hok hnew hh hb
    · refine uploading_perform rfl fun done => ?_
      cases (done : Bool) with
      | false => exact uploading_refuse _
      | true =>
        simp only [if_true]
        split
        · exact uploading_complete hok hnew hh hb
        · exact uploading_receive hok hnew hh hb localSize

theorem uploading_content :
    Uploading lib ok i db ctx arg bs packet.fileSize
      (uploadContent ctx arg (absPath ctx.currentPath arg)
        (baseName (absPath ctx.currentPath arg)) packet) := by
  refine uploading_before (buildStoreFilePath_uses (fun o => o.tableless = true) rfl _) fun r => ?_
  cases r with
  | none => exact uploading_reply _
  | some realPath =>
    refine uploading_perform rfl fun done => ?_
    cases (done : Bool) with
    | false => exact uploading_reply _
    | true =>
      refine uploading_perform rfl fun st => ?_
      split
      · exact uploading_perform rfl fun _ => uploading_resume hok hnew hh hb 0
      · exact uploading_resume hok hnew hh hb _

theorem uploading_store :
    Uploading lib ok i db ctx arg bs packet.fileSize
      (storeContent ctx arg (absPath ctx.currentPath arg)
        (baseName (absPath ctx.currentPath arg)) packet) := by
  intro w hw
  refine solo_findHash hok hh hb ?_
  cases hf : w.db.fileOf bs with
  | none => exact uploading_content hok hnew hh hb w hw
  | some r =>
    refine uploading_before (checkStoreFileReady_uses (fun o => o.tableless = true) rfl
      (fun _ => rfl) _ _) (fun x => ?_) w hw
    rcases x with _ | _ | _
    · exact uploading_reply _
    · exact uploading_content hok hnew hh hb
    · intro w₁ hw₁
      obtain ⟨-,-,-,hn⟩ := vacant_true hnew.vacant
      rw [← hw₁] at hn
      rw [hw,← hw₁] at hf
      refine solo_linkRow hok hn ?_
      refine solo_tableless ⟨rfl,fun _ => trivial⟩ fun _ w' h => ⟨?_,h.unlinked,h.storeDir⟩
      have hlink : w'.db = db.upload ctx arg bs packet.fileSize := by
        rw [h.db,Db.upload,Db.link,← hw₁,hf]
      rw [hlink]
      exact .linked hnew

end Content

theorem uploading_puts {w : World ι} (hok : StatementsHold ok)
    (hh : IsHash (w.node.conn i).hello.hash) (hb : unhex (w.node.conn i).hello.hash = some bs)
    (ctx : ClientContext) (arg : Text) :
    Solo lib ok i (handlePuts ctx arg) (fun _ w' =>
      Uploaded w.db ctx arg bs (w.node.conn i).hello.fileSize w'.db ∧
        w'.node.unlinked = w.node.unlinked ∧ w'.node.storeDir = w.node.storeDir) w := by
  have hrefuse : ∀ msg, Uploading lib ok i w.db ctx arg bs (w.node.conn i).hello.fileSize
      (sendMsg msg) := uploading_reply
  intro c r w₁ _ hx
  obtain ⟨hr,rfl⟩ := execute_recvFile hx
  rcases hr with rfl | rfl
  · generalize (w₁.node.conn i).hello = packet at *
    dsimp only
    cases hpath : buildFullVirtualPath fullPathLen ctx arg with
    | none => exact hrefuse _ w₁ rfl
    | some fullPath =>
      obtain ⟨rfl,hcheck,hslash,-⟩ := transferFullPath_eq hpath
      refine solo_strcpy fun _ => ?_
      split
      · rename_i hvalid
        refine solo_getNodeByPath hok ?_
        cases hl : w₁.db.lookup ctx.userId (absPath ctx.currentPath arg) with
        | some node => exact uploading_perform rfl (fun _ => hrefuse _) w₁ rfl
        | none =>
          have hne : arg ≠ [] := by
            rintro rfl
            exact absurd hcheck (by decide)
          have hnew : Uploadable w₁.db ctx arg := ⟨⟨hcheck,hslash⟩,vacant_iff.mpr ⟨hne,hvalid,hl⟩⟩
          dsimp only
          split
          · exact hrefuse _ w₁ rfl
          · exact uploading_store hok hnew hh hb w₁ rfl
      · exact hrefuse _ w₁ rfl
  · exact hrefuse _ w₁ rfl

theorem solo_serveUpload {w : World ι} (hok : StatementsHold ok)
    (hh : IsHash (w.node.conn i).hello.hash) (hb : unhex (w.node.conn i).hello.hash = some bs)
    (userId : ℤ) (fullPath : Text) :
    Solo lib ok i (serveUpload userId fullPath) (fun _ w' =>
      (w'.db = w.db ∨ ∃ ctx arg, w.db.transferContext userId fullPath = some (ctx,arg) ∧
        Uploaded w.db ctx arg bs (w.node.conn i).hello.fileSize w'.db) ∧
        w'.node.unlinked = w.node.unlinked ∧ w'.node.storeDir = w.node.storeDir) w := by
  have hfail : ∀ w₁ : World ι, w₁ = w → ∀ fileName msg,
      Solo lib ok i (failPutsRequest fileName msg) (fun _ w' => (w'.db = w.db ∨ ∃ ctx arg,
        w.db.transferContext userId fullPath = some (ctx,arg) ∧
          Uploaded w.db ctx arg bs (w.node.conn i).hello.fileSize w'.db) ∧
            w'.node.unlinked = w.node.unlinked ∧ w'.node.storeDir = w.node.storeDir) w₁ := by
    rintro w₁ rfl fileName msg
    have hless : Tableless (failPutsRequest fileName msg) := by
      refine ⟨rfl,fun r => ?_⟩
      cases (r : Option FilePacket) with
      | none => trivial
      | some packet => exact ⟨rfl,fun _ => ⟨rfl,fun _ => trivial⟩⟩
    exact solo_tableless hless fun _ w' h => ⟨.inl h.db,h.unlinked,h.storeDir⟩
  have hserve : ∀ ctx arg, w.db.transferContext userId fullPath = some (ctx,arg) →
      Solo lib ok i (handlePuts ctx arg) (fun _ w' => (w'.db = w.db ∨ ∃ ctx arg,
        w.db.transferContext userId fullPath = some (ctx,arg) ∧
          Uploaded w.db ctx arg bs (w.node.conn i).hello.fileSize w'.db) ∧
            w'.node.unlinked = w.node.unlinked ∧ w'.node.storeDir = w.node.storeDir) w := by
    intro ctx arg hctx
    refine Machine.wlp_mono _ ?_ (uploading_puts hok hh hb ctx arg)
    rintro _ w' ⟨hup,hu,hd⟩
    exact ⟨.inr ⟨ctx,arg,hctx,hup⟩,hu,hd⟩
  unfold serveUpload buildTransferContext
  cases hsplit : splitFullPath fullPath 256 fileNameLen with
  | none => exact hfail w rfl _ _
  | some e =>
    obtain ⟨parent,fileName⟩ := e
    dsimp only
    split
    · rename_i hroot
      exact hserve _ _ (by rw [Db.transferContext,hsplit]; exact if_pos hroot)
    · rename_i hroot
      rw [Program.bind_bind]
      refine solo_getNodeByPath hok ?_
      have hctx : w.db.transferContext userId fullPath = match w.db.lookup userId parent with
          | none => none
          | some (dirId,nodeType) =>
            if nodeType ≠ 1 then none else some (⟨userId,parent.take 255,dirId⟩,fileName) := by
        rw [Db.transferContext,hsplit]
        exact if_neg hroot
      rcases hl : w.db.lookup userId parent with _ | ⟨dirId,nodeType⟩
      · exact hfail w rfl _ _
      · rw [hl] at hctx
        dsimp only at hctx ⊢
        by_cases ht : nodeType = 1
        · rw [if_neg (by simpa using ht)] at hctx ⊢
          exact hserve _ _ hctx
        · rw [if_pos ht]
          exact hfail w rfl _ _

end Handlers

end WindCloud
