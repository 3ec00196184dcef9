import WindCloud.Lib.Turns
import WindCloud.Server.Usage

/-!
# The reply to a control command

Each command is answered by exactly one packet, in the layout that belongs to
the request. The exception is a transfer request without a login, which is
answered by a text.
-/

set_option autoImplicit false

namespace WindCloud
open CString Effect

def Op.sends (k : PacketKind) : Op → Prop
  | .send p => p.kind = k
  | _ => False

abbrev Mute {α : Type} (p : Server α) : Prop := p.Uses fun o => ¬o.isSend = true

abbrev Answers {α : Type} (k : PacketKind) (p : Server α) : Prop :=
  p.Once (fun o => o.isSend = true) (Op.sends k)

section Rules

variable {α β : Type} {k : PacketKind}

theorem mute_bind {p : Server α} {f : α → Server β} (hp : Mute p) (hf : ∀ a, Mute (f a)) :
    Mute (p >>= f) :=
  Program.uses_bind p f hp hf

theorem mute_perform {o : Op} (ho : ¬o.isSend = true) : Mute (perform o) :=
  ⟨ho,fun _ => trivial⟩

theorem mute_sql (t : Statement) : Mute (sql t) := ⟨nofun,fun _ => trivial⟩

theorem answers_bind {p : Server α} {f : α → Server β} (hp : Mute p)
    (hf : ∀ a, Answers k (f a)) : Answers k (p >>= f) :=
  Program.uses_once p f hp hf

theorem answers_last {p : Server α} {a : β} (hp : Answers k p) : Answers k (p >>= fun _ => pure a) :=
  Program.once_bind p _ hp fun _ => trivial

theorem answers_packet {p : Packet} {a : α} (hp : p.kind = k) :
    Answers k (.op (.send p) fun _ => .ret a) :=
  .inl ⟨rfl,hp,fun _ => trivial⟩

theorem answers_sendMsg (msg : Text) : Answers .command (sendMsg msg) := answers_packet rfl

end Rules

section Lookups

theorem mute_strcpy (size : ℕ) (t : Text) : Mute (strcpy size t) :=
  strcpy_uses _ nofun size t

theorem mute_getNodeByPath (userId : ℤ) (path : Text) : Mute (daoGetNodeByPath userId path) :=
  getNodeByPath_uses _ (fun _ _ => nofun) userId path

theorem mute_getFileInfoByPath (userId : ℤ) (path : Text) :
    Mute (daoGetFileInfoByPath userId path) :=
  getFileInfoByPath_uses _ (fun _ _ => nofun) userId path

theorem mute_listDir (userId : ℤ) (dirId : ℕ) : Mute (daoListDir userId dirId) :=
  listDir_uses _ (fun _ _ => nofun) nofun userId dirId

theorem mute_isDirEmpty (userId : ℤ) (dirId : ℕ) : Mute (daoIsDirEmpty userId dirId) :=
  isDirEmpty_uses _ (fun _ _ => nofun) userId dirId

theorem mute_release (fileId : ℕ) : Mute (releaseFileEntityIfUnused fileId) :=
  release_uses _ (fun _ _ => nofun) nofun (fun _ => nofun) fileId

theorem mute_createEmptyFileNode (ctx : ClientContext) (targetPath fileName : Text) :
    Mute (createEmptyFileNode ctx targetPath fileName) :=
  createEmptyFileNode_uses _ (fun _ _ => nofun) (fun _ => nofun) nofun (fun _ => nofun) fun _ => nofun

theorem mute_hash (password salt : Text) : Mute (hashPasswordWithSalt password salt) :=
  hashPassword_uses _ (fun _ => nofun) password salt

theorem mute_generateSalt : Mute generateSalt :=
  generateSalt_uses _ (fun _ => nofun) nofun fun _ => nofun

theorem mute_registeredId (userName : Text) : Mute (registeredId userName) :=
  registeredId_uses _ (fun _ => nofun) userName

theorem mute_jwtCreateForUser (userId : ℤ) (size : ℕ) : Mute (jwtCreateForUser userId size) :=
  jwtCreateForUser_uses _ nofun (fun _ => nofun) userId size

theorem mute_issueTransferTicket (g : Grant) (size : ℕ) : Mute (issueTransferTicket g size) :=
  issueTransferTicket_uses _ nofun (fun _ => nofun) (fun _ => nofun) (fun _ _ => nofun) g size

end Lookups

section Commands

theorem answers_login (data : Text) : Answers .auth (handleLogin data) := by
  have hrefuse : ∀ message, Answers .auth (refuseLogin message) := fun _ => answers_packet rfl
  unfold handleLogin
  split
  · exact hrefuse _
  rename_i userName userPasswd _
  refine answers_bind (mute_sql _) fun r => ?_
  rcases r with _ | ⟨dbUserId,storedHash,salt⟩
  · exact hrefuse _
  refine answers_bind (mute_hash _ _) fun computedHash => ?_
  split
  · refine answers_bind (mute_jwtCreateForUser _ _) fun r => ?_
    cases r with
    | none => exact hrefuse _
    | some token => exact answers_packet rfl
  · exact hrefuse _

theorem answers_register (data : Text) : Answers .command (handleRegister data) := by
  unfold handleRegister
  split
  · exact answers_last (answers_sendMsg _)
  refine answers_bind mute_generateSalt fun salt => ?_
  refine answers_bind (mute_hash _ _) fun hash => ?_
  refine answers_bind (mute_sql _) fun r => ?_
  cases (r : Bool) with
  | false => exact answers_last (answers_sendMsg _)
  | true => exact answers_bind (mute_registeredId _) fun _ => answers_last (answers_sendMsg _)

theorem answers_ls (ctx : ClientContext) : Answers .command (handleLs ctx) := by
  refine answers_bind (mute_listDir _ _) fun r => ?_
  cases r with
  | none => exact answers_sendMsg _
  | some text =>
    dsimp only
    split <;> exact answers_sendMsg _

theorem answers_enterDir (ctx : ClientContext) (targetPath : Text) :
    Answers .command (enterDir ctx targetPath) := by
  refine answers_bind (mute_getNodeByPath _ _) fun r => ?_
  rcases r with _ | ⟨targetId,nodeType⟩
  · exact answers_last (answers_sendMsg _)
  · dsimp only
    split <;> exact answers_last (answers_sendMsg _)

theorem answers_cd (ctx : ClientContext) (arg : Text) : Answers .command (handleCd ctx arg) := by
  unfold handleCd
  split
  · exact answers_last (answers_sendMsg _)
  split
  · exact answers_bind (mute_strcpy _ _) fun _ => answers_enterDir _ _
  split
  · exact answers_last (answers_sendMsg _)
  · exact answers_bind (mute_strcpy _ _) fun _ => answers_enterDir _ _

theorem answers_target {ctx : ClientContext} {arg : Text} {missing : String}
    {act : Text → Server Unit} (hact : ∀ targetPath, Answers .command (act targetPath)) :
    Answers .command (if arg = [] then sendMsg missing.toList
      else buildAbsPath ctx.currentPath arg >>= act) := by
  split
  · exact answers_sendMsg _
  · exact answers_bind (mute_strcpy _ _) hact

theorem answers_creation {ctx : ClientContext} {arg : Text} {missing taken long done failed : String}
    {create : Text → Text → Server Bool}
    (hcreate : ∀ targetPath fileName, Mute (create targetPath fileName)) :
    Answers .command (if arg = [] then sendMsg missing.toList
      else buildAbsPath ctx.currentPath arg >>= fun targetPath =>
        extractFileName 64 targetPath >>= fun fileName =>
          if isValidVfsName fileName then
            daoGetNodeByPath ctx.userId targetPath >>= fun r =>
              match r with
              | some _ => sendMsg taken.toList
              | none => create targetPath fileName >>= fun made =>
                if made then sendMsg done.toList else sendMsg failed.toList
          else sendMsg long.toList) := by
  refine answers_target fun targetPath => answers_bind (mute_strcpy _ _) fun fileName => ?_
  split
  · refine answers_bind (mute_getNodeByPath _ _) fun r => ?_
    cases r with
    | some node => exact answers_sendMsg _
    | none =>
      refine answers_bind (hcreate _ _) fun made => ?_
      cases made <;> exact answers_sendMsg _
  · exact answers_sendMsg _

theorem answers_mkdir (ctx : ClientContext) (arg : Text) :
    Answers .command (handleMkdir ctx arg) :=
  answers_creation fun _ _ => mute_sql _

theorem answers_touch (ctx : ClientContext) (arg : Text) :
    Answers .command (handleTouch ctx arg) :=
  answers_creation fun _ _ => mute_createEmptyFileNode _ _ _

theorem answers_rm (ctx : ClientContext) (arg : Text) : Answers .command (handleRm ctx arg) := by
  refine answers_target fun targetPath => answers_bind (mute_getNodeByPath _ _) fun r => ?_
  rcases r with _ | ⟨targetId,nodeType⟩
  · exact answers_sendMsg _
  dsimp only
  split
  · exact answers_sendMsg _
  refine answers_bind (mute_getFileInfoByPath _ _) fun r => ?_
  rcases r with _ | ⟨_,fileId⟩
  · exact answers_sendMsg _
  have hremove : Mute (removeFile ctx targetId fileId) := by
    refine mute_bind (mute_sql _) fun r => ?_
    cases (r : Bool) with
    | false => trivial
    | true => exact mute_release fileId
  refine answers_bind hremove fun r => ?_
  cases r <;> exact answers_sendMsg _

theorem answers_rmdir (ctx : ClientContext) (arg : Text) :
    Answers .command (handleRmdir ctx arg) := by
  refine answers_target fun targetPath => answers_bind (mute_getNodeByPath _ _) fun r => ?_
  rcases r with _ | ⟨targetId,nodeType⟩
  · exact answers_sendMsg _
  dsimp only
  split
  · exact answers_sendMsg _
  refine answers_bind (mute_isDirEmpty _ _) fun r => ?_
  rcases r with _ | _ | _
  · exact answers_sendMsg _
  · exact answers_sendMsg _
  · refine answers_bind (mute_sql _) fun r => ?_
    cases (r : Bool) <;> exact answers_sendMsg _

theorem answers_plan (ctx : ClientContext) (arg : Text) :
    Answers .plan (handleMultiGetsPlan ctx arg) := by
  have hsend : ∀ p, Answers .plan (sendMultiGetsPlanPacket p) := fun _ => answers_packet rfl
  unfold handleMultiGetsPlan
  split
  · exact hsend _
  refine answers_bind (mute_getFileInfoByPath _ _) fun r => ?_
  rcases r with _ | ⟨_,fileId⟩
  · exact hsend _
  refine answers_bind (mute_sql _) fun r => ?_
  rcases r with _ | ⟨h,size⟩
  · exact hsend _
  refine answers_bind (loadAvailableSources_uses _ nofun (fun _ => nofun) _) fun r => ?_
  cases r <;> exact hsend _

theorem answers_rangeTicket (ctx : ClientContext) (arg : Text) :
    Answers .ticket (handleGetsRangeTicketPrepare ctx arg) := by
  have hrefuse : ∀ message, Answers .ticket (refuseTicket message) := fun _ => answers_packet rfl
  unfold handleGetsRangeTicketPrepare
  split
  · exact hrefuse _
  split
  · exact hrefuse _
  refine answers_bind (mute_getFileInfoByPath _ _) fun r => ?_
  rcases r with _ | ⟨_,fileId⟩
  · exact hrefuse _
  refine answers_bind (loadAvailableSources_uses _ nofun (fun _ => nofun) _) fun r => ?_
  cases r with
  | none => exact hrefuse _
  | some sources =>
    dsimp only
    split
    · refine answers_bind (mute_issueTransferTicket _ _) fun r => ?_
      cases r <;> exact answers_packet rfl
    · exact hrefuse _

theorem answers_transferTicket (ctx : ClientContext) (cmdType : CmdType) (arg : Text) :
    Answers .ticket (handleTransferPrepare ctx cmdType arg) := by
  have hrefuse : ∀ message, Answers .ticket (refuseTicket message) := fun _ => answers_packet rfl
  unfold handleTransferPrepare
  split
  · exact hrefuse _
  refine answers_bind (getCurrentServerAddress_uses _ nofun _ _) fun r => ?_
  rcases r with _ | ⟨ip,port⟩
  · exact hrefuse _
  · refine answers_bind (mute_issueTransferTicket _ _) fun r => ?_
    cases r <;> exact answers_packet rfl

/-- The layout of the reply, by login state and request. -/
def replyLayout (ctx : ClientContext) (cmdType : CmdType) : PacketKind :=
  if ctx.userId = -1 ∧ cmdType ≠ .login then .command else cmdType.replyKind

theorem answers_dispatch (ctx : ClientContext) (cmdType : CmdType) (data : Text) :
    Answers (replyLayout ctx cmdType) (dispatchControlCommand ctx cmdType data) := by
  have hcommand : replyLayout ctx .register = .command := by
    unfold replyLayout
    split <;> rfl
  unfold dispatchControlCommand
  split
  · rename_i hout
    rw [replyLayout,if_pos ⟨hout.1,hout.2.1⟩]
    exact answers_last (answers_sendMsg _)
  rename_i hin
  by_cases hreg : cmdType = .register
  · subst hreg
    rw [hcommand]
    exact answers_last (answers_register data)
  have hlayout : replyLayout ctx cmdType = cmdType.replyKind :=
    if_neg fun h => hin ⟨h.1,h.2,hreg⟩
  rw [hlayout]
  cases cmdType with
  | invalid | reply => exact answers_last (answers_sendMsg _)
  | register => exact absurd rfl hreg
  | login => exact Program.once_bind _ _ (answers_login data) fun _ => trivial
  | pwd => exact answers_last (answers_sendMsg _)
  | cd => exact answers_cd ctx data
  | ls => exact answers_last (answers_ls ctx)
  | touch => exact answers_last (answers_touch ctx data)
  | rm => exact answers_last (answers_rm ctx data)
  | mkdir => exact answers_last (answers_mkdir ctx data)
  | rmdir => exact answers_last (answers_rmdir ctx data)
  | gets => exact answers_last (answers_plan ctx data)
  | getsRange => exact answers_last (answers_rangeTicket ctx data)
  | puts => exact answers_last (answers_transferTicket ctx .puts data)

end Commands

end WindCloud
