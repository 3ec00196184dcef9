import WindCloud.Server.Session
import WindCloud.Server.Steps

/-!
# What a function of the server issues

Idle operations leave the store's files alone. The table work, the replies and
the lookups before an upload consist of idle operations only.
-/

set_option autoImplicit false

namespace WindCloud
open CString Effect Function

namespace Op

/-- Operations that leave the store's files and the caller's open file alone,
except that the latter may be closed. -/
def idle : Op → Bool
  | .openUpload _ | .openEmpty _ | .openRead _ | .ftruncate _ | .mmap _ | .lseek _ | .write _
  | .recvMapped _ _ | .unlink _ => false
  | _ => true

def isSend : Op → Bool
  | .send _ => true
  | _ => false

end Op

namespace Statement

/-- Statements that enter a file, a reference to it and a source. -/
def enters : Statement → Bool
  | fileBySha256 _ | insertFile _ _ | addRefCount _ | upsertSource _ _ _ => true
  | _ => false

def releases : Statement → Bool
  | fileInfoById _ | subRefCount _ | refCount _ | deleteSources _ | deleteFile _ => true
  | _ => false

def prunes : Statement → Bool
  | deleteNode _ _ => true
  | _ => false

end Statement

/-- A file node may be created there. -/
abbrev MayEnter (allowed : Op → Prop) (ctx : ClientContext) (fullPath fileName : Text) : Prop :=
  ∀ fileId, allowed (.sql (.createFileNode ctx.userId fullPath ctx.currentDirId fileName fileId))

abbrev Idle {α : Type} (p : Server α) : Prop := p.Uses fun o => o.idle = true

section Functions

variable {α β : Type}

theorem idle_bind {p : Server α} {f : α → Server β} (hp : Idle p) (hf : ∀ a, Idle (f a)) :
    Idle (p >>= f) :=
  Program.uses_bind p f hp hf

theorem idle_pure (a : α) : Idle (pure a : Server α) := trivial

theorem idle_perform {o : Op} (ho : o.idle = true) : Idle (perform o) := ⟨ho,fun _ => trivial⟩

theorem idle_sql (t : Statement) : Idle (sql t) := ⟨rfl,fun _ => trivial⟩

theorem strcpy_uses (allowed : Op → Prop) (h : allowed .overflow) (size : ℕ) (t : Text) :
    (strcpy size t).Uses allowed := by
  unfold strcpy
  split
  · trivial
  · exact ⟨h,fun e => e.elim⟩

theorem idle_strcpy (size : ℕ) (t : Text) : Idle (strcpy size t) :=
  strcpy_uses (fun o => o.idle = true) rfl size t

theorem idle_sendMsg (msg : Text) : Idle (sendMsg msg) := ⟨rfl,fun _ => trivial⟩

theorem idle_close : Idle close := ⟨rfl,fun _ => trivial⟩

theorem buildStoreFilePath_uses (allowed : Op → Prop) (hd : allowed .storeDir) (h : Text) :
    (buildStoreFilePath h).Uses allowed := by
  refine ⟨hd,fun r => ?_⟩
  cases r <;> trivial

theorem getCurrentServerAddress_uses (allowed : Op → Prop) (h : allowed .configAddress)
    (m n : ℕ) : (getCurrentServerAddress m n).Uses allowed := by
  refine ⟨h,fun ⟨ip,port⟩ => ?_⟩
  simp only [Program.bind]
  split <;> trivial

theorem checkStoreFileReady_uses (allowed : Op → Prop) (hd : allowed .storeDir)
    (hs : ∀ path, allowed (.stat path)) (h : Text) (size : ℤ) :
    (checkStoreFileReady h size).Uses allowed := by
  refine Program.uses_bind _ _ (buildStoreFilePath_uses allowed hd h) fun r => ?_
  cases r with
  | none => trivial
  | some path =>
    refine ⟨hs path,fun r => ?_⟩
    cases r <;> trivial

theorem idle_checkStoreFileReady (h : Text) (size : ℤ) : Idle (checkStoreFileReady h size) :=
  checkStoreFileReady_uses (fun o => o.idle = true) rfl (fun _ => rfl) h size

theorem getNodeByPath_uses (allowed : Op → Prop)
    (h : ∀ userId path, allowed (.sql (.nodeByPath userId path))) (userId : ℤ) (path : Text) :
    (daoGetNodeByPath userId path).Uses allowed := by
  unfold daoGetNodeByPath
  split
  · trivial
  · exact ⟨h userId path,fun _ => trivial⟩

theorem idle_getNodeByPath (userId : ℤ) (path : Text) : Idle (daoGetNodeByPath userId path) :=
  getNodeByPath_uses (fun o => o.idle = true) (fun _ _ => rfl) userId path

theorem fileInsert_uses (allowed : Op → Prop) (hsql : ∀ t, t.enters = true → allowed (.sql t))
    (h : Text) (size : ℤ) : (daoFileInsert h size).Uses allowed := by
  refine ⟨hsql _ rfl,fun r => ?_⟩
  cases (r : Bool) with
  | false => trivial
  | true =>
    refine ⟨hsql _ rfl,fun r => ?_⟩
    rcases (r : Option (ℕ × ℤ)) with _ | _ <;> trivial

theorem createUserFileLink_uses (allowed : Op → Prop) (h : ∀ t, t.enters = true → allowed (.sql t))
    {ctx : ClientContext} {fullPath fileName : Text} (hnode : MayEnter allowed ctx fullPath fileName)
    (fileId : ℕ) (needAddRef : Bool) :
    (createUserFileLink ctx fullPath fileName fileId needAddRef).Uses allowed := by
  refine ⟨hnode fileId,fun r => ?_⟩
  cases (r : Bool) with
  | false => trivial
  | true =>
    cases needAddRef with
    | false => trivial
    | true => exact ⟨h _ rfl,fun _ => trivial⟩

theorem registerSource_uses (allowed : Op → Prop) (hsql : ∀ t, t.enters = true → allowed (.sql t))
    (hconfig : allowed .configAddress) (fileId : ℕ) : (registerSource fileId).Uses allowed := by
  refine Program.uses_bind _ _ (getCurrentServerAddress_uses allowed hconfig _ _) fun r => ?_
  rcases r with _ | ⟨ip,port⟩
  · trivial
  · unfold daoFileSourceUpsert
    dsimp only
    split
    · trivial
    · exact ⟨hsql _ rfl,fun _ => trivial⟩

theorem linkUpload_uses (allowed : Op → Prop) (hsql : ∀ t, t.enters = true → allowed (.sql t))
    (hconfig : allowed .configAddress) {ctx : ClientContext} {fullPath fileName : Text}
    (hnode : MayEnter allowed ctx fullPath fileName) (fileId : ℕ) (needAddRef : Bool) :
    (linkUpload ctx fullPath fileName fileId needAddRef).Uses allowed := by
  refine Program.uses_bind _ _ (createUserFileLink_uses allowed hsql hnode _ _) fun r => ?_
  cases r with
  | false => trivial
  | true => exact registerSource_uses allowed hsql hconfig fileId

theorem finishUploadDbWork_uses (allowed : Op → Prop)
    (hsql : ∀ t, t.enters = true → allowed (.sql t)) (hconfig : allowed .configAddress)
    {ctx : ClientContext} {fullPath fileName : Text} (hnode : MayEnter allowed ctx fullPath fileName)
    (h : Text) (size : ℤ) :
    (finishUploadDbWork ctx fullPath fileName h size).Uses allowed := by
  refine Program.uses_bind _ _ (fileInsert_uses allowed hsql h size) fun r => ?_
  cases r with
  | some fileId => exact linkUpload_uses allowed hsql hconfig hnode _ _
  | none =>
    refine ⟨hsql _ rfl,fun r => ?_⟩
    rcases (r : Option (ℕ × ℤ)) with _ | ⟨fileId,_⟩
    · trivial
    · exact linkUpload_uses allowed hsql hconfig hnode _ _

theorem completeUpload_uses (allowed : Op → Prop) (hsql : ∀ t, t.enters = true → allowed (.sql t))
    (hconfig : allowed .configAddress) (hsend : ∀ p, allowed (.send p)) (hclose : allowed .close)
    {ctx : ClientContext} {fullPath fileName : Text} (hnode : MayEnter allowed ctx fullPath fileName)
    (packet : FilePacket) :
    (completeUpload ctx fullPath fileName packet).Uses allowed := by
  refine Program.uses_bind _ _ (finishUploadDbWork_uses allowed hsql hconfig hnode _ _) fun r => ?_
  cases r <;> exact ⟨hsend _,fun _ => ⟨hclose,fun _ => trivial⟩⟩

theorem idle_completeUpload (ctx : ClientContext) (fullPath fileName : Text)
    (packet : FilePacket) : Idle (completeUpload ctx fullPath fileName packet) :=
  completeUpload_uses (fun o => o.idle = true) (fun _ _ => rfl) rfl (fun _ => rfl) rfl (fun _ => rfl)
    packet

theorem instantUpload_uses (allowed : Op → Prop) (h : ∀ t, t.enters = true → allowed (.sql t))
    (hs : ∀ p, allowed (.send p)) {ctx : ClientContext} {fullPath fileName : Text}
    (hnode : MayEnter allowed ctx fullPath fileName) (arg : Text) (packet : FilePacket) (fileId : ℕ) :
    (instantUpload ctx arg fullPath fileName packet fileId).Uses allowed := by
  refine Program.uses_bind _ _ (createUserFileLink_uses allowed h hnode _ _) fun r => ?_
  cases r <;> exact ⟨hs _,fun _ => trivial⟩

theorem idle_instantUpload (ctx : ClientContext) (arg fullPath fileName : Text)
    (packet : FilePacket) (fileId : ℕ) :
    Idle (instantUpload ctx arg fullPath fileName packet fileId) :=
  instantUpload_uses (fun o => o.idle = true) (fun _ _ => rfl) (fun _ => rfl) (fun _ => rfl) arg
    packet fileId

theorem getFileInfoByPath_uses (allowed : Op → Prop)
    (h : ∀ userId path, allowed (.sql (.fileInfoByPath userId path))) (userId : ℤ) (path : Text) :
    (daoGetFileInfoByPath userId path).Uses allowed := by
  refine ⟨h userId path,fun r => ?_⟩
  rcases (r : Option (ℕ × Option ℕ × ℕ)) with _ | ⟨id,_ | f,type⟩
  · trivial
  · trivial
  · simp only [Program.bind]
    split <;> trivial

theorem loadAvailableSources_uses (allowed : Op → Prop) (hc : allowed .configAddress)
    (hs : ∀ fileId, allowed (.sql (.listSources fileId))) (fileId : ℕ) :
    (loadAvailableSourcesForFile fileId).Uses allowed := by
  have hown : currentServerSource.Uses allowed := by
    refine Program.uses_bind _ _ (getCurrentServerAddress_uses allowed hc 64 16) fun r => ?_
    split <;> trivial
  unfold loadAvailableSourcesForFile
  split
  · trivial
  · refine Program.uses_bind _ _ ?_ fun r => ?_
    · unfold daoFileSourceList
      split
      · trivial
      · refine ⟨hs fileId,fun r => ?_⟩
        cases r <;> trivial
    · split
      · exact hown
      · split
        · exact hown
        · trivial

theorem isDirEmpty_uses (allowed : Op → Prop)
    (h : ∀ userId dirId, allowed (.sql (.anyChild userId dirId))) (userId : ℤ) (dirId : ℕ) :
    (daoIsDirEmpty userId dirId).Uses allowed := by
  refine ⟨h userId dirId,fun r => ?_⟩
  cases (r : Option Bool) <;> trivial

theorem sourceDelete_uses (allowed : Op → Prop) (h : ∀ id, allowed (.sql (.deleteSources id)))
    (fileId : ℕ) : (daoFileSourceDeleteByFileId fileId).Uses allowed := by
  unfold daoFileSourceDeleteByFileId
  split
  · trivial
  · exact ⟨h _,fun _ => trivial⟩

theorem unlinkStoreFile_uses (allowed : Op → Prop) (hd : allowed .storeDir)
    (hu : ∀ path, allowed (.unlink path)) (h : Text) : (unlinkStoreFile h).Uses allowed := by
  refine Program.uses_bind _ _ (buildStoreFilePath_uses allowed hd h) fun r => ?_
  cases r with
  | none => trivial
  | some path => exact ⟨hu path,fun _ => trivial⟩

theorem release_uses (allowed : Op → Prop)
    (hsql : ∀ t, t.releases = true → allowed (.sql t)) (hd : allowed .storeDir)
    (hu : ∀ path, allowed (.unlink path)) (fileId : ℕ) :
    (releaseFileEntityIfUnused fileId).Uses allowed := by
  have hstmt : ∀ t, t.releases = true → (sql t).Uses allowed :=
    fun t ht => ⟨hsql t ht,fun _ => trivial⟩
  refine Program.uses_bind _ _ (hstmt _ rfl) fun r => ?_
  rcases r with _ | ⟨h,size⟩
  · trivial
  refine Program.uses_bind _ _ (hstmt _ rfl) fun r => ?_
  cases (r : Bool) with
  | false => trivial
  | true =>
    refine Program.uses_bind _ _ (hstmt _ rfl) fun r => ?_
    cases r with
    | none => trivial
    | some refCount =>
      dsimp only
      split
      · trivial
      · refine Program.uses_bind _ _ (unlinkStoreFile_uses allowed hd hu h) fun _ => ?_
        exact Program.uses_bind _ _ (sourceDelete_uses allowed (fun _ => hsql _ rfl) fileId)
          fun _ => hstmt _ rfl

theorem reuseEmptyFile_uses (allowed : Op → Prop)
    (hsql : ∀ t, t.enters = true → allowed (.sql t)) {ctx : ClientContext}
    {targetPath fileName : Text} (hnode : MayEnter allowed ctx targetPath fileName) (fileId : ℕ) :
    (reuseEmptyFile ctx targetPath fileName fileId).Uses allowed := by
  refine ⟨hnode fileId,fun r => ?_⟩
  cases (r : Bool) with
  | false => trivial
  | true => exact ⟨hsql _ rfl,fun _ => trivial⟩

theorem createEmptyFileNode_uses (allowed : Op → Prop)
    (hsql : ∀ t, t.enters = true → allowed (.sql t))
    (hdel : ∀ id, allowed (.sql (.deleteFile id))) (hd : allowed .storeDir)
    (ho : ∀ path, allowed (.openEmpty path)) {ctx : ClientContext} {targetPath fileName : Text}
    (hnode : MayEnter allowed ctx targetPath fileName) :
    (createEmptyFileNode ctx targetPath fileName).Uses allowed := by
  have hstmt : ∀ t, t.enters = true → (sql t).Uses allowed :=
    fun t ht => ⟨hsql t ht,fun _ => trivial⟩
  have hensure : ensureEmptyStoreFileExists.Uses allowed := by
    refine Program.uses_bind _ _ (buildStoreFilePath_uses allowed hd _) fun r => ?_
    cases r with
    | none => trivial
    | some path => exact ⟨ho path,fun _ => trivial⟩
  refine Program.uses_bind _ _ hensure fun r => ?_
  cases r with
  | false => trivial
  | true =>
    refine Program.uses_bind _ _ (hstmt _ rfl) fun r => ?_
    rcases r with _ | ⟨fileId,size⟩
    · refine Program.uses_bind _ _ (fileInsert_uses allowed hsql _ _) fun r => ?_
      cases r with
      | none =>
        refine Program.uses_bind _ _ (hstmt _ rfl) fun r => ?_
        rcases r with _ | ⟨fileId,size⟩
        · trivial
        · exact reuseEmptyFile_uses allowed hsql hnode _
      | some fileId =>
        have hcreate : (daoCreateFileNode ctx.userId targetPath ctx.currentDirId fileName
          fileId).Uses allowed := ⟨hnode fileId,fun _ => trivial⟩
        refine Program.uses_bind _ _ hcreate fun r => ?_
        cases (r : Bool) with
        | false => exact ⟨hdel _,fun _ => trivial⟩
        | true => trivial
    · exact reuseEmptyFile_uses allowed hsql hnode _

theorem creation_uses (allowed : Op → Prop) (ho : allowed .overflow)
    (hlook : ∀ userId path, allowed (.sql (.nodeByPath userId path)))
    (hsend : ∀ p, allowed (.send p)) {ctx : ClientContext} {arg : Text}
    {missing exists_ long : String} {create : Text → Text → Server Unit}
    (hcreate : arg ≠ [] → isValidVfsName (baseName (absPath ctx.currentPath arg)) = true →
      (create (absPath ctx.currentPath arg) (baseName (absPath ctx.currentPath arg))).Uses allowed) :
    Program.Uses allowed (if arg = [] then sendMsg missing.toList
      else buildAbsPath ctx.currentPath arg >>= fun targetPath =>
        extractFileName 64 targetPath >>= fun fileName =>
          if isValidVfsName fileName then
            daoGetNodeByPath ctx.userId targetPath >>= fun r =>
              match r with
              | some _ => sendMsg exists_.toList
              | none => create targetPath fileName
          else sendMsg long.toList) := by
  have hreply : ∀ msg, (sendMsg msg).Uses allowed := fun _ => ⟨hsend _,fun _ => trivial⟩
  split
  · exact hreply _
  rename_i hne
  unfold buildAbsPath extractFileName strcpy
  split
  · dsimp only [Pure.pure,Bind.bind,Program.bind]
    split
    · dsimp only [Program.bind]
      split
      · rename_i hvalid
        refine Program.uses_bind _ _ (getNodeByPath_uses allowed hlook _ _) fun r => ?_
        cases r with
        | some node => exact hreply _
        | none => exact hcreate hne hvalid
      · exact hreply _
    · exact ⟨ho,fun r => r.elim⟩
  · exact ⟨ho,fun r => r.elim⟩

theorem listDir_uses (allowed : Op → Prop)
    (hsql : ∀ userId dirId, allowed (.sql (.listDir userId dirId))) (ho : allowed .overflow)
    (userId : ℤ) (dirId : ℕ) : (daoListDir userId dirId).Uses allowed := by
  refine ⟨hsql userId dirId,fun r => ?_⟩
  rcases (r : Option (List (Text × ℕ))) with _ | rows
  · trivial
  · simp only [Program.bind]
    split
    · trivial
    · exact ⟨ho,fun r => r.elim⟩

theorem hashPassword_uses (allowed : Op → Prop) (h : ∀ t, allowed (.sha256 t))
    (password salt : Text) : (hashPasswordWithSalt password salt).Uses allowed :=
  ⟨h _,fun _ => trivial⟩

theorem generateSalt_uses (allowed : Op → Prop) (hr : ∀ n, allowed (.randBytes n))
    (ht : allowed .time) (h : ∀ n, allowed (.rand n)) : generateSalt.Uses allowed := by
  refine ⟨hr 16,fun r => ?_⟩
  cases r with
  | none => exact ⟨ht,fun _ => ⟨h 16,fun _ => trivial⟩⟩
  | some bs => trivial

theorem registeredId_uses (allowed : Op → Prop) (h : ∀ name, allowed (.sql (.userByName name)))
    (userName : Text) : (registeredId userName).Uses allowed := by
  refine ⟨h userName,fun r => ?_⟩
  rcases (r : Option (ℕ × Text × Text)) with _ | _ <;> trivial

theorem jwtCreateForUser_uses (allowed : Op → Prop) (ht : allowed .time)
    (he : ∀ p, allowed (.jwtEncode p)) (userId : ℤ) (size : ℕ) :
    (jwtCreateForUser userId size).Uses allowed := by
  refine ⟨ht,fun now => ⟨he _,fun r => ?_⟩⟩
  cases r <;> trivial

theorem issueTransferTicket_uses (allowed : Op → Prop) (ht : allowed .time)
    (hr : ∀ n, allowed (.randBytes n)) (he : ∀ p, allowed (.jwtEncode p))
    (hreg : ∀ now id, allowed (.ticketRegister now id)) (g : Grant) (size : ℕ) :
    (issueTransferTicket g size).Uses allowed := by
  refine ⟨ht,fun now => ?_⟩
  simp only [Program.bind]
  split
  · trivial
  have hid : generateTicketId.Uses allowed := by
    refine ⟨hr 16,fun r => ?_⟩
    cases r <;> trivial
  have hcreate : ∀ id, (jwtCreateTransferTicket g id size).Uses allowed := by
    intro id
    refine ⟨ht,fun now => ?_⟩
    simp only [Program.bind]
    split
    · trivial
    · refine ⟨he _,fun r => ?_⟩
      cases r <;> trivial
  refine Program.uses_bind _ _ hid fun r => ?_
  cases r with
  | none => trivial
  | some id =>
    refine Program.uses_bind _ _ (hcreate id) fun r => ?_
    cases r with
    | none => trivial
    | some ticket =>
      refine ⟨hreg now id,fun r => ?_⟩
      cases (r : Bool) <;> trivial

end Functions

section Steps

attribute [local simp] execute

variable {ι : Type} [DecidableEq ι] {lib : Library} {i : ι}

theorem execute_idle {o : Op} {w w' : World ι} {c : Choice} {r : o.Res} (ho : o.idle = true)
    (h : execute lib o i w c = some (r,w')) :
    w'.node.store = w.node.store ∧ w'.node.storeDir = w.node.storeDir ∧
      (w'.node.conn i).hello = (w.node.conn i).hello ∧
      (w'.node.conn i).answer = (w.node.conn i).answer := by
  by_cases hq : o.quiet = true
  · rw [execute_quiet hq h]
    exact ⟨rfl,rfl,rfl,rfl⟩
  cases o <;> simp only [Op.idle,Op.quiet,not_true,Bool.false_eq_true] at ho hq
  case sql t =>
    rcases execute_sql h with ⟨_,db,_,rfl⟩ | ⟨_,_,rfl⟩ <;> exact ⟨rfl,rfl,rfl,rfl⟩
  case close =>
    rw [execute_close h]
    exact ⟨rfl,rfl,rfl,rfl⟩
  case recv once =>
    rcases execute_recv h with ⟨n,_,_,_,_,rfl⟩ | ⟨_,_,rfl⟩
    · exact ⟨rfl,rfl,by simp [World.setNode,Node.consume,Node.setConn],
        by simp [World.setNode,Node.consume,Node.setConn]⟩
    · exact ⟨rfl,rfl,rfl,rfl⟩
  case send p =>
    rcases execute_send h with ⟨_,_,rfl⟩ | ⟨_,_,rfl⟩
    · exact ⟨rfl,rfl,by simp [World.setNode,Node.deliver,Node.setConn],
        by simp [World.setNode,Node.deliver,Node.setConn]⟩
    · exact ⟨rfl,rfl,rfl,rfl⟩
  case randBytes count => cases c <;> simp at h <;> grind
  case jwtEncode p => cases c <;> simp at h <;> grind
  case ticketRegister now id =>
    cases c <;> simp at h
    obtain ⟨_,rfl⟩ := h
    exact ⟨rfl,rfl,rfl,rfl⟩
  case ticketConsume now id =>
    cases c <;> simp at h
    obtain ⟨_,rfl⟩ := h
    exact ⟨rfl,rfl,rfl,rfl⟩
  case overflow => exact r.elim

theorem execute_announced {o : Op} {w w' : World ι} {c : Choice} {r : o.Res}
    (h : execute lib o i w c = some (r,w')) :
    w'.node.storeDir = w.node.storeDir ∧ (w'.node.conn i).hello = (w.node.conn i).hello := by
  by_cases ho : o.idle = true
  · obtain ⟨_,hd,hh,_⟩ := execute_idle ho h
    exact ⟨hd,hh⟩
  cases o <;> simp only [Op.idle,not_true] at ho
  case openUpload path =>
    rcases execute_openUpload h with ⟨_,rfl⟩ | ⟨_,rfl⟩ <;> exact ⟨rfl,rfl⟩
  case openEmpty path =>
    rcases execute_openEmpty h with ⟨_,rfl⟩ | ⟨_,rfl⟩ <;> exact ⟨rfl,rfl⟩
  case openRead path =>
    rcases execute_openRead h with ⟨n,_,_,rfl⟩ | ⟨_,rfl⟩ <;> exact ⟨rfl,rfl⟩
  case ftruncate size =>
    rcases execute_ftruncate h with ⟨d,_,_,_,_,rfl⟩ | ⟨_,_,_,rfl⟩ | ⟨_,_,rfl⟩ <;> exact ⟨rfl,rfl⟩
  case mmap size =>
    rw [(execute_mmap h).1]
    exact ⟨rfl,rfl⟩
  case lseek pos =>
    rcases execute_lseek h with ⟨d,_,_,_,_,rfl⟩ | ⟨_,_,_,rfl⟩ | ⟨_,_,rfl⟩ <;> exact ⟨rfl,rfl⟩
  case write buf =>
    rcases execute_write h with ⟨d,_,_,_,rfl⟩ | ⟨_,_,rfl⟩ <;> exact ⟨rfl,rfl⟩
  case recvMapped pos once =>
    rcases execute_recvMapped h with ⟨d,_,_,_,_,rfl⟩ | ⟨_,_,rfl⟩
    · exact ⟨rfl,by simp [World.setNode,Node.consume,Node.setConn,Node.patch]⟩
    · exact ⟨rfl,rfl⟩
  case unlink path =>
    rcases execute_unlink h with ⟨_,rfl⟩ | ⟨_,rfl⟩ <;> exact ⟨rfl,rfl⟩

/-- No operation touches the connection of another caller. -/
theorem execute_others {o : Op} {w w' : World ι} {c : Choice} {r : o.Res} {j : ι} (hj : j ≠ i)
    (h : execute lib o i w c = some (r,w')) : w'.node.conn j = w.node.conn j := by
  by_cases hq : o.quiet = true
  · rw [execute_quiet hq h]
  cases o <;> simp only [Op.quiet,not_true] at hq
  case sql t => rcases execute_sql h with ⟨_,db,_,rfl⟩ | ⟨_,_,rfl⟩ <;> rfl
  case openUpload path => rcases execute_openUpload h with ⟨_,rfl⟩ | ⟨_,rfl⟩ <;> rfl
  case openEmpty path => rcases execute_openEmpty h with ⟨_,rfl⟩ | ⟨_,rfl⟩ <;> rfl
  case openRead path => rcases execute_openRead h with ⟨n,_,_,rfl⟩ | ⟨_,rfl⟩ <;> rfl
  case ftruncate size =>
    rcases execute_ftruncate h with ⟨d,_,_,_,_,rfl⟩ | ⟨_,_,_,rfl⟩ | ⟨_,_,rfl⟩ <;> rfl
  case lseek pos =>
    rcases execute_lseek h with ⟨d,_,_,_,_,rfl⟩ | ⟨_,_,_,rfl⟩ | ⟨_,_,rfl⟩ <;> rfl
  case write buf => rcases execute_write h with ⟨d,_,_,_,rfl⟩ | ⟨_,_,rfl⟩ <;> rfl
  case recvMapped pos once =>
    rcases execute_recvMapped h with ⟨d,_,_,_,_,rfl⟩ | ⟨_,_,rfl⟩
    · simp [World.setNode,Node.consume,Node.setConn,Node.patch,update_of_ne hj]
    · rfl
  case close =>
    rw [execute_close h]
    rfl
  case unlink path => rcases execute_unlink h with ⟨_,rfl⟩ | ⟨_,rfl⟩ <;> rfl
  case recv once =>
    rcases execute_recv h with ⟨n,_,_,_,_,rfl⟩ | ⟨_,_,rfl⟩
    · simp [World.setNode,Node.consume,Node.setConn,update_of_ne hj]
    · rfl
  case send p =>
    rcases execute_send h with ⟨_,_,rfl⟩ | ⟨_,_,rfl⟩
    · simp [World.setNode,Node.deliver,Node.setConn,update_of_ne hj]
    · rfl
  case randBytes count => cases c <;> simp at h <;> grind
  case jwtEncode p => cases c <;> simp at h <;> grind
  case ticketRegister now id =>
    cases c <;> simp at h
    obtain ⟨_,rfl⟩ := h
    rfl
  case ticketConsume now id =>
    cases c <;> simp at h
    obtain ⟨_,rfl⟩ := h
    rfl
  case overflow => exact r.elim

end Steps

end WindCloud
