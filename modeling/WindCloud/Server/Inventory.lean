import WindCloud.Server.Commands
import WindCloud.Server.TransferUsage

/-!
# What a control command issues

Apart from reads and replies, each control command issues a few kinds of
operations only. The nodes it enters and takes out are those of the session's
user.
-/

set_option autoImplicit false

namespace WindCloud
open CString Effect Function

namespace Op

/-- Operations that change neither the tables nor the files of the store. -/
def plain : Op → Bool
  | .sql t => t.reads
  | o => o.idle

end Op

inductive Licensed (ctx : ClientContext) (data : Text) : CmdType → Op → Prop
  | plain (cmdType : CmdType) {o : Op} (ho : o.plain = true) : Licensed ctx data cmdType o
  | insertUser (username passwordHash salt : Text) :
      Licensed ctx data .register (.sql (.insertUser username passwordHash salt))
  | createNode (inside : ctx.userId ≠ -1) :
      Licensed ctx data .mkdir (.sql (.createNode ctx.userId (absPath ctx.currentPath data)
        ctx.currentDirId (baseName (absPath ctx.currentPath data)) 1))
  | openEmpty (path : Text) : Licensed ctx data .touch (.openEmpty path)
  | createFileNode (inside : ctx.userId ≠ -1) (fileId : ℕ) :
      Licensed ctx data .touch (.sql (.createFileNode ctx.userId (absPath ctx.currentPath data)
        ctx.currentDirId (baseName (absPath ctx.currentPath data)) fileId))
  | enter {t : Statement} (ht : t.enters = true) : Licensed ctx data .touch (.sql t)
  | takeBack (fileId : ℕ) : Licensed ctx data .touch (.sql (.deleteFile fileId))
  | deleteNode (inside : ctx.userId ≠ -1) (nodeId : ℕ) :
      Licensed ctx data .rm (.sql (.deleteNode ctx.userId nodeId))
  | release {t : Statement} (ht : t.releases = true) : Licensed ctx data .rm (.sql t)
  | unlink (path : Text) : Licensed ctx data .rm (.unlink path)
  | deleteDir (inside : ctx.userId ≠ -1) (nodeId : ℕ) :
      Licensed ctx data .rmdir (.sql (.deleteNode ctx.userId nodeId))

abbrev Plainly {α : Type} (p : Server α) : Prop := p.Uses fun o => o.plain = true

section Readers

variable {α β : Type}

theorem plain_bind {p : Server α} {f : α → Server β} (hp : Plainly p) (hf : ∀ a, Plainly (f a)) :
    Plainly (p >>= f) :=
  Program.uses_bind p f hp hf

theorem plain_sendMsg (msg : Text) : Plainly (sendMsg msg) := ⟨rfl,fun _ => trivial⟩

theorem plain_sql {t : Statement} (ht : t.reads = true) : Plainly (sql t) := ⟨ht,fun _ => trivial⟩

theorem plain_strcpy (size : ℕ) (t : Text) : Plainly (strcpy size t) :=
  strcpy_uses (fun o => o.plain = true) rfl size t

theorem plain_getNodeByPath (userId : ℤ) (path : Text) : Plainly (daoGetNodeByPath userId path) :=
  getNodeByPath_uses (fun o => o.plain = true) (fun _ _ => rfl) userId path

theorem plain_getFileInfoByPath (userId : ℤ) (path : Text) :
    Plainly (daoGetFileInfoByPath userId path) :=
  getFileInfoByPath_uses (fun o => o.plain = true) (fun _ _ => rfl) userId path

theorem plain_loadAvailableSources (fileId : ℕ) : Plainly (loadAvailableSourcesForFile fileId) :=
  loadAvailableSources_uses (fun o => o.plain = true) rfl (fun _ => rfl) fileId

theorem plain_issueTransferTicket (g : Grant) (size : ℕ) : Plainly (issueTransferTicket g size) :=
  issueTransferTicket_uses (fun o => o.plain = true) rfl (fun _ => rfl) (fun _ => rfl)
    (fun _ _ => rfl) g size

variable {ctx : ClientContext} {data : Text}

theorem plain_ls (ctx : ClientContext) : Plainly (handleLs ctx) := by
  refine plain_bind (listDir_uses (fun o => o.plain = true) (fun _ _ => rfl) rfl _ _) fun r => ?_
  cases r with
  | none => exact plain_sendMsg _
  | some text =>
    dsimp only
    split <;> exact plain_sendMsg _

theorem plain_cd (ctx : ClientContext) (data : Text) : Plainly (handleCd ctx data) := by
  have hback : ∀ msg (ctx' : ClientContext), Plainly (sendMsg msg >>= fun _ => pure ctx') :=
    fun msg _ => plain_bind (plain_sendMsg msg) fun _ => trivial
  have henter : ∀ path, Plainly (enterDir ctx path) := by
    intro path
    refine plain_bind (plain_getNodeByPath _ _) fun r => ?_
    rcases r with _ | ⟨targetId,nodeType⟩
    · exact hback _ _
    · dsimp only
      split <;> exact hback _ _
  unfold handleCd
  split
  · exact hback _ _
  split
  · exact plain_bind (plain_strcpy _ _) fun _ => henter _
  split
  · exact hback _ _
  · exact plain_bind (plain_strcpy _ _) fun _ => henter _

theorem plain_plan (ctx : ClientContext) (arg : Text) : Plainly (handleMultiGetsPlan ctx arg) := by
  have hsend : ∀ p, Plainly (sendMultiGetsPlanPacket p) := fun _ => ⟨rfl,fun _ => trivial⟩
  unfold handleMultiGetsPlan
  split
  · exact hsend _
  refine plain_bind (plain_getFileInfoByPath _ _) fun r => ?_
  rcases r with _ | ⟨_,fileId⟩
  · exact hsend _
  refine plain_bind (plain_sql rfl) fun r => ?_
  rcases (r : Option (Text × ℤ)) with _ | ⟨h,size⟩
  · exact hsend _
  refine plain_bind (plain_loadAvailableSources _) fun r => ?_
  cases r <;> exact hsend _

theorem plain_refuseTicket (message : String) : Plainly (refuseTicket message) :=
  ⟨rfl,fun _ => trivial⟩

theorem plain_rangeTicket (ctx : ClientContext) (arg : Text) :
    Plainly (handleGetsRangeTicketPrepare ctx arg) := by
  unfold handleGetsRangeTicketPrepare
  split
  · exact plain_refuseTicket _
  split
  · exact plain_refuseTicket _
  refine plain_bind (plain_getFileInfoByPath _ _) fun r => ?_
  rcases r with _ | ⟨_,fileId⟩
  · exact plain_refuseTicket _
  refine plain_bind (plain_loadAvailableSources _) fun r => ?_
  cases r with
  | none => exact plain_refuseTicket _
  | some sources =>
    dsimp only
    split
    · refine plain_bind (plain_issueTransferTicket _ _) fun r => ?_
      cases r <;> exact ⟨rfl,fun _ => trivial⟩
    · exact plain_refuseTicket _

theorem plain_transferTicket (ctx : ClientContext) (cmdType : CmdType) (arg : Text) :
    Plainly (handleTransferPrepare ctx cmdType arg) := by
  unfold handleTransferPrepare
  split
  · exact plain_refuseTicket _
  refine plain_bind (getCurrentServerAddress_uses (fun o => o.plain = true) rfl _ _) fun r => ?_
  rcases r with _ | ⟨ip,port⟩
  · exact plain_refuseTicket _
  · refine plain_bind (plain_issueTransferTicket _ _) fun r => ?_
    cases r <;> exact ⟨rfl,fun _ => trivial⟩

theorem plain_login (data : Text) : Plainly (handleLogin data) := by
  have hrefuse : ∀ message, Plainly (refuseLogin message) := fun _ => ⟨rfl,fun _ => trivial⟩
  unfold handleLogin
  split
  · exact hrefuse _
  refine plain_bind (plain_sql rfl) fun r => ?_
  rcases (r : Option (ℕ × Text × Text)) with _ | ⟨dbUserId,storedHash,salt⟩
  · exact hrefuse _
  refine plain_bind (hashPassword_uses (fun o => o.plain = true) (fun _ => rfl) _ _)
    fun computedHash => ?_
  split
  · refine plain_bind (jwtCreateForUser_uses (fun o => o.plain = true) rfl (fun _ => rfl) _ _)
      fun token => ?_
    cases token with
    | none => exact hrefuse _
    | some token => exact ⟨rfl,fun _ => trivial⟩
  · exact hrefuse _

end Readers

section Commands

variable {ctx : ClientContext} {data : Text}

theorem plain_licensed {α : Type} {cmdType : CmdType} {p : Server α} (hp : Plainly p) :
    p.Uses (Licensed ctx data cmdType) :=
  Program.uses_mono (fun _ ho => .plain cmdType ho) hp

theorem licensed_sendMsg {cmdType : CmdType} (msg : Text) :
    (sendMsg msg).Uses (Licensed ctx data cmdType) :=
  plain_licensed (plain_sendMsg msg)

theorem register_licensed : (handleRegister data).Uses (Licensed ctx data .register) := by
  unfold handleRegister
  split
  · exact plain_licensed ⟨rfl,fun _ => trivial⟩
  refine Program.uses_bind _ _ (generateSalt_uses _ (fun _ => .plain _ rfl) (.plain _ rfl)
    fun _ => .plain _ rfl) fun salt => ?_
  refine Program.uses_bind _ _ (hashPassword_uses _ (fun _ => .plain _ rfl) _ _)
    fun passwordHash => ?_
  refine Program.uses_bind _ _ (perform_uses (.insertUser _ _ _)) fun r => ?_
  cases (r : Bool) with
  | false => exact plain_licensed ⟨rfl,fun _ => trivial⟩
  | true =>
    refine Program.uses_bind _ _ (registeredId_uses _ (fun _ => .plain _ rfl) _) fun _ => ?_
    exact plain_licensed ⟨rfl,fun _ => trivial⟩

theorem touch_licensed (inside : ctx.userId ≠ -1) :
    (handleTouch ctx data).Uses (Licensed ctx data .touch) := by
  refine creation_uses _ (.plain _ rfl) (fun _ _ => .plain _ rfl) (fun _ => .plain _ rfl)
    fun _ _ => ?_
  refine Program.uses_bind _ _ (createEmptyFileNode_uses _ (fun _ ht => .enter ht) .takeBack
    (.plain _ rfl) .openEmpty (.createFileNode inside)) fun r => ?_
  cases r <;> exact licensed_sendMsg _

theorem mkdir_licensed (inside : ctx.userId ≠ -1) :
    (handleMkdir ctx data).Uses (Licensed ctx data .mkdir) := by
  refine creation_uses _ (.plain _ rfl) (fun _ _ => .plain _ rfl) (fun _ => .plain _ rfl)
    fun _ _ => ?_
  refine Program.uses_bind _ _ (perform_uses (.createNode inside)) fun r => ?_
  cases (r : Bool) <;> exact licensed_sendMsg _

theorem rm_licensed (inside : ctx.userId ≠ -1) :
    (handleRm ctx data).Uses (Licensed ctx data .rm) := by
  unfold handleRm
  split
  · exact licensed_sendMsg _
  refine Program.uses_bind _ _ (plain_licensed (plain_strcpy _ _)) fun path => ?_
  refine Program.uses_bind _ _ (plain_licensed (plain_getNodeByPath _ _)) fun r => ?_
  rcases r with _ | ⟨targetId,nodeType⟩
  · exact licensed_sendMsg _
  dsimp only
  split
  · exact licensed_sendMsg _
  refine Program.uses_bind _ _ (plain_licensed (plain_getFileInfoByPath _ _)) fun r => ?_
  rcases r with _ | ⟨_,fileId⟩
  · exact licensed_sendMsg _
  have hremove : (removeFile ctx targetId fileId).Uses (Licensed ctx data .rm) := by
    refine Program.uses_bind _ _ (perform_uses (.deleteNode inside _)) fun r => ?_
    cases (r : Bool) with
    | false => trivial
    | true => exact release_uses _ (fun _ ht => .release ht) (.plain _ rfl) .unlink fileId
  refine Program.uses_bind _ _ hremove fun r => ?_
  cases r <;> exact licensed_sendMsg _

theorem rmdir_licensed (inside : ctx.userId ≠ -1) :
    (handleRmdir ctx data).Uses (Licensed ctx data .rmdir) := by
  unfold handleRmdir
  split
  · exact licensed_sendMsg _
  refine Program.uses_bind _ _ (plain_licensed (plain_strcpy _ _)) fun path => ?_
  refine Program.uses_bind _ _ (plain_licensed (plain_getNodeByPath _ _)) fun r => ?_
  rcases r with _ | ⟨targetId,nodeType⟩
  · exact licensed_sendMsg _
  dsimp only
  split
  · exact licensed_sendMsg _
  refine Program.uses_bind _ _ (isDirEmpty_uses _ (fun _ _ => .plain _ rfl) _ _) fun r => ?_
  rcases r with _ | _ | _
  · exact licensed_sendMsg _
  · exact licensed_sendMsg _
  · refine Program.uses_bind _ _ (perform_uses (.deleteDir inside _)) fun r => ?_
    cases (r : Bool) <;> exact licensed_sendMsg _

/-- A control command issues nothing else. -/
theorem dispatch_licensed (ctx : ClientContext) (cmdType : CmdType) (data : Text) :
    (dispatchControlCommand ctx cmdType data).Uses (Licensed ctx data cmdType) := by
  have hback : ∀ {p : Server Unit}, p.Uses (Licensed ctx data cmdType) →
      (p >>= fun _ => pure ctx).Uses (Licensed ctx data cmdType) :=
    fun hp => Program.uses_bind _ _ hp fun _ => trivial
  unfold dispatchControlCommand
  split
  · exact hback (licensed_sendMsg _)
  rename_i hout
  have hin : cmdType ≠ .login → cmdType ≠ .register → ctx.userId ≠ -1 :=
    fun hl hr h => hout ⟨h,hl,hr⟩
  cases cmdType with
  | login => exact Program.uses_bind _ _ (plain_licensed (plain_login data)) fun _ => trivial
  | register => exact Program.uses_bind _ _ register_licensed fun _ => trivial
  | pwd => exact hback (licensed_sendMsg _)
  | cd => exact plain_licensed (plain_cd ctx data)
  | ls => exact hback (plain_licensed (plain_ls ctx))
  | touch => exact hback (touch_licensed (hin (by decide) (by decide)))
  | rm => exact hback (rm_licensed (hin (by decide) (by decide)))
  | mkdir => exact hback (mkdir_licensed (hin (by decide) (by decide)))
  | rmdir => exact hback (rmdir_licensed (hin (by decide) (by decide)))
  | gets => exact hback (plain_licensed (plain_plan ctx data))
  | getsRange => exact hback (plain_licensed (plain_rangeTicket ctx data))
  | puts => exact hback (plain_licensed (plain_transferTicket ctx .puts data))
  | invalid | reply => exact hback (licensed_sendMsg _)

end Commands

end WindCloud
