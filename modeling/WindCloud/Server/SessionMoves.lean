import WindCloud.Server.NodePaths
import WindCloud.Server.Replies

/-!
# How a command moves the session

What the session is after a command, read off the reply. A login that succeeds
tells so, a change of directory is told by a text that speaks of success, and no
other command moves the session.
-/

set_option autoImplicit false

namespace WindCloud
open CString Effect

/-- The packet an operation sends. -/
def Op.tells : Op → Option Packet
  | .send p => some p
  | _ => none

abbrev Emits {α : Type} (p : Server α) (ps : List Packet) (a : α) : Prop :=
  p.Emits Op.tells ps a

/-- The path `cd` leads to from `currentPath`. -/
def followed (currentPath arg : Text) : Text :=
  if arg = "..".toList then parentPath currentPath else absPath currentPath arg

/-- The text of a reply speaks of success. -/
def SpeaksOfSuccess (data : Text) : Prop := isInfix "成功".toList data = true

/-- The replies of `cd`, each with the session behind it. -/
inductive Entering (ctx : ClientContext) (arg : Text) : List Packet → ClientContext → Prop
  | stayed (text : Text) (failure : ¬SpeaksOfSuccess (text.take (cmdDataLen-1))) :
      Entering ctx arg [initCommandPacket .reply text] ctx
  | here (dot : arg = ".".toList) :
      Entering ctx arg [initCommandPacket .reply "进入目录成功".toList] ctx
  | entered (dirId : ℕ) (named : arg ≠ ".".toList)
      (short : (followed ctx.currentPath arg).length < 256) :
      Entering ctx arg [initCommandPacket .reply "进入目录成功".toList]
        { ctx with currentPath := followed ctx.currentPath arg, currentDirId := dirId }

section Texts

variable {α β : Type} {ps : List Packet}

theorem tells_of_silent (o : Op) (ho : ¬o.isSend = true) : o.tells = none := by
  cases o <;> first | rfl | exact absurd rfl ho

theorem mute_tells {p : Server α} (hp : Mute p) : p.Uses fun o => o.tells = none :=
  Program.uses_mono tells_of_silent hp

theorem mute_emits {p : Server α} {f : α → Server β} {b : β} (hp : Mute p)
    (h : Emits (p >>= f) ps b) : ∃ a, p.Returns a ∧ Emits (f a) ps b :=
  Program.silent_emits_bind p f (mute_tells hp) h

theorem sendMsg_emits {msg : Text} {a b : α} (h : Emits (sendMsg msg >>= fun _ => pure a) ps b) :
    ps = [initCommandPacket .reply msg] ∧ b = a := by
  obtain ⟨r,qs,rfl,hr⟩ := h
  obtain ⟨rfl,rfl⟩ := hr
  exact ⟨rfl,rfl⟩

theorem strcpy_returns {size : ℕ} {t u : Text} (h : (strcpy size t).Returns u) :
    u = t ∧ t.length < size := by
  unfold strcpy at h
  split at h
  · rename_i hlen
    exact ⟨h,hlen⟩
  · obtain ⟨r,_⟩ := h
    exact r.elim

end Texts

section Directory

variable {ctx ctx' : ClientContext} {arg path : Text} {ps : List Packet}

theorem enterDir_emits (hpath : path = followed ctx.currentPath arg) (hshort : path.length < 256)
    (harg : arg ≠ ".".toList) (h : Emits (enterDir ctx path) ps ctx') : Entering ctx arg ps ctx' := by
  obtain ⟨r,-,h⟩ := mute_emits (mute_getNodeByPath _ _) h
  rcases r with _ | ⟨targetId,nodeType⟩
  · obtain ⟨rfl,rfl⟩ := sendMsg_emits h
    exact .stayed _ (by unfold SpeaksOfSuccess; decide +kernel)
  · dsimp only at h
    split at h
    · obtain ⟨rfl,rfl⟩ := sendMsg_emits h
      exact .stayed _ (by unfold SpeaksOfSuccess; decide +kernel)
    · obtain ⟨rfl,rfl⟩ := sendMsg_emits h
      subst hpath
      exact .entered targetId harg hshort

theorem handleCd_emits (h : Emits (handleCd ctx arg) ps ctx') : Entering ctx arg ps ctx' := by
  unfold handleCd at h
  split at h
  · obtain ⟨rfl,rfl⟩ := sendMsg_emits h
    exact .stayed _ (by unfold SpeaksOfSuccess; decide +kernel)
  split at h
  · rename_i hup
    obtain ⟨target,htarget,h⟩ := mute_emits (mute_strcpy _ _) h
    obtain ⟨rfl,hshort⟩ := strcpy_returns htarget
    refine enterDir_emits ?_ hshort (by rw [hup]; decide) h
    rw [followed,if_pos hup]
  split at h
  · rename_i hdot
    obtain ⟨rfl,rfl⟩ := sendMsg_emits h
    exact .here hdot
  · rename_i hup hdot
    obtain ⟨target,htarget,h⟩ := mute_emits (mute_strcpy _ _) h
    obtain ⟨rfl,hshort⟩ := strcpy_returns htarget
    refine enterDir_emits ?_ hshort hdot h
    rw [followed,if_neg hup]

end Directory

section Login

/-- A login result of success carries the user's number, any other leaves none. -/
def LoginAnswer (ps : List Packet) (userId : ℤ) : Prop :=
  ∃ reply, ps = [.auth reply] ∧ (reply.success = 1 → 0 ≤ userId) ∧
    (reply.success ≠ 1 → userId = -1)

theorem refuseLogin_emits {message : String} {ps : List Packet} {userId : ℤ}
    (h : Emits (refuseLogin message) ps userId) : LoginAnswer ps userId := by
  obtain ⟨r,qs,rfl,hr⟩ := h
  obtain ⟨rfl,rfl⟩ := hr
  exact ⟨_,rfl,fun hs => absurd (show (0 : ℤ) = 1 from hs) (by decide),fun _ => rfl⟩

theorem handleLogin_emits {data : Text} {ps : List Packet} {userId : ℤ}
    (h : Emits (handleLogin data) ps userId) : LoginAnswer ps userId := by
  unfold handleLogin at h
  split at h
  · exact refuseLogin_emits h
  obtain ⟨r,-,h⟩ := mute_emits (mute_sql _) h
  rcases (r : Option (ℕ × Text × Text)) with _ | ⟨dbUserId,storedHash,salt⟩
  · exact refuseLogin_emits h
  · obtain ⟨computedHash,-,h⟩ := mute_emits (mute_hash _ _) h
    split at h
    · obtain ⟨r,-,h⟩ := mute_emits (mute_jwtCreateForUser _ _) h
      cases r with
      | none => exact refuseLogin_emits h
      | some token =>
        obtain ⟨r,qs,rfl,hr⟩ := h
        obtain ⟨rfl,rfl⟩ := hr
        exact ⟨_,rfl,fun _ => Int.natCast_nonneg _,fun hs => absurd rfl hs⟩
    · exact refuseLogin_emits h

/-- The database holds the name, and the hash of the password with its salt. -/
def Admits (lib : Library) (db : Db) (data : Text) : Prop :=
  ∃ userName userPasswd row, splitCredentials data = some (userName,userPasswd) ∧
    db.users.find? (fun r => r.username = userName) = some row ∧
    Hex.hexLower (lib.sha256 ((userPasswd ++ row.salt).take 255)) = row.passwordHash

theorem login_admitted {ι : Type} [DecidableEq ι] {lib : Library} {i : ι}
    {ok : Op → World ι → Choice → Prop} (data : Text) (w : World ι) :
    (server ι lib).wlp ok i (handleLogin data)
      (fun userId _ => userId ≠ -1 → Admits lib w.db data) w := by
  have hrefuse : ∀ message w', (server ι lib).wlp ok i (refuseLogin message)
      (fun userId _ => userId ≠ -1 → Admits lib w.db data) w' := by
    intro message w' c r w'' _ _ hid
    exact absurd rfl hid
  unfold handleLogin
  split
  · exact hrefuse _ w
  rename_i userName userPasswd hsplit
  intro c r w₁ _ hx
  have hrow : ∀ row, r = some row → ∃ user,
      w.db.users.find? (fun r => r.username = userName) = some user ∧
        row = (user.id,user.passwordHash,user.salt) := by
    intro row hr
    cases c <;> cases hx
    · obtain ⟨user,huser,rfl⟩ := Option.map_eq_some_iff.mp hr
      exact ⟨user,huser,rfl⟩
    · cases hr
  rcases (r : Option (ℕ × Text × Text)) with _ | ⟨dbUserId,storedHash,salt⟩
  · exact hrefuse _ w₁
  obtain ⟨user,huser,hcells⟩ := hrow _ rfl
  obtain ⟨rfl,rfl,rfl⟩ : dbUserId = user.id ∧ storedHash = user.passwordHash ∧ salt = user.salt := by
    simpa using hcells
  intro c' digest w₂ _ hx'
  have hdigest : digest = lib.sha256 ((userPasswd ++ user.salt).take 255) := by
    cases c' <;> cases hx'
    rfl
  change (server ι lib).wlp ok i
    (if Hex.hexLower digest = user.passwordHash then acceptLogin user.id else refuseLogin "密码错误")
    _ w₂
  split
  · rename_i hhash
    refine Machine.wlp_mono w₂ (fun _ _ _ _ => ?_) (Machine.wlp_true _ w₂)
    exact ⟨userName,userPasswd,user,hsplit,huser,hdigest ▸ hhash⟩
  · exact hrefuse _ w₂

end Login

section Dispatch

variable {ctx ctx' : ClientContext} {cmdType : CmdType} {data : Text} {ps : List Packet}

theorem dispatch_single (h : Emits (dispatchControlCommand ctx cmdType data) ps ctx') :
    ps.length ≤ 1 := by
  obtain ⟨o,_,_,rfl⟩ := Program.once_emits tells_of_silent _ (answers_dispatch ctx cmdType data) h
  cases o.tells <;> simp

theorem dispatch_refused (hout : ctx.userId = -1) (hl : cmdType ≠ .login)
    (hr : cmdType ≠ .register) (h : Emits (dispatchControlCommand ctx cmdType data) ps ctx') :
    ps = [initCommandPacket .reply "请先登录!".toList] ∧ ctx' = ctx := by
  unfold dispatchControlCommand at h
  rw [if_pos ⟨hout,hl,hr⟩] at h
  exact sendMsg_emits h

theorem dispatch_login (h : Emits (dispatchControlCommand ctx .login data) ps ctx') :
    ∃ userId, LoginAnswer ps userId ∧ ctx' = loginContext ctx userId := by
  unfold dispatchControlCommand at h
  rw [if_neg (by simp)] at h
  obtain ⟨userId,qs,rs,rfl,hlogin,rfl,rfl⟩ := Program.emits_bind _ _ h
  exact ⟨userId,by rw [List.append_nil]; exact handleLogin_emits hlogin,rfl⟩

theorem dispatch_cd (hin : ctx.userId ≠ -1)
    (h : Emits (dispatchControlCommand ctx .cd data) ps ctx') : Entering ctx data ps ctx' := by
  unfold dispatchControlCommand at h
  rw [if_neg (by simp [hin])] at h
  exact handleCd_emits h

/-- Only `login` and `cd` move the session. -/
theorem dispatch_still (hl : cmdType ≠ .login) (hc : cmdType ≠ .cd)
    (h : (dispatchControlCommand ctx cmdType data).Returns ctx') : ctx' = ctx := by
  have hlast : ∀ {α : Type} (p : Server α), (p >>= fun _ => pure ctx).Returns ctx' → ctx' = ctx := by
    intro α p hp
    obtain ⟨_,-,hr⟩ := Program.returns_bind _ _ _ hp
    exact hr
  unfold dispatchControlCommand at h
  split at h
  · exact hlast _ h
  · cases cmdType with
    | login => exact absurd rfl hl
    | cd => exact absurd rfl hc
    | _ => exact hlast _ h

end Dispatch

end WindCloud
