import WindCloud.Server.DriveRuns
import WindCloud.Server.Listing
import WindCloud.Server.UploadFailures

/-!
# Requests in which nothing fails

Where no operation fails a handler does what it is asked to whenever its
argument and the tables allow it, and its peer is told so exactly then.
-/

set_option autoImplicit false

namespace WindCloud
open CString Effect Function

/-- The text a command that changes the tables reports its success with. -/
def CmdType.success : CmdType → Packet
  | .mkdir => initCommandPacket .reply "创建文件夹成功".toList
  | .touch => initCommandPacket .reply "创建文件成功".toList
  | .rm => initCommandPacket .reply "文件删除成功".toList
  | .rmdir => initCommandPacket .reply "删除目录成功".toList
  | _ => initCommandPacket .reply "上传完成！".toList

/-- The directory an argument names is there and has no entries. -/
def Db.clearable (db : Db) (ctx : ClientContext) (arg : Text) : Bool :=
  decide (arg ≠ []) && match db.lookup ctx.userId (absPath ctx.currentPath arg) with
    | none => false
    | some (id,type) =>
      decide (type ≠ 0) && !db.paths.any fun r => r.userId = ctx.userId ∧ r.parentId = id

section Rules

variable {ι : Type} [DecidableEq ι] {lib : Library} {i : ι} {α β : Type} {w₀ w : World ι}

omit [DecidableEq ι] in
theorem faultless_statements : StatementsHold (Faultless (ι := ι)) := fun _ _ _ h => h

/-- The peer was told one text more, and it reports success exactly if `granted`. -/
def AnsweredBy (i : ι) (w₀ : World ι) (success : Packet) (granted : Bool) (w : World ι) : Prop :=
  ∃ p, w.told i = w₀.told i ++ [p] ∧ (p = success ↔ granted = true)

theorem solo_text {msg : Text} {Q : Unit → World ι → Prop}
    (h : ∀ w', w'.db = w.db → w'.told i = w.told i ++ [initCommandPacket .reply msg] → Q () w') :
    Solo lib Faultless i (sendMsg msg) Q w := by
  intro c r w' hc hx
  rcases execute_send hx with ⟨-,-,rfl⟩ | ⟨rfl,-⟩
  · refine h _ rfl ?_
    rw [deliver_told]
    rfl
  · exact absurd rfl hc

theorem solo_answer {success : Packet} {granted : Bool} {msg : Text} (ht : w.told i = w₀.told i)
    (hm : initCommandPacket .reply msg = success ↔ granted = true) :
    Solo lib Faultless i (sendMsg msg)
      (fun _ w' => w'.db = w.db ∧ AnsweredBy i w₀ success granted w') w :=
  solo_text fun w' hdb htold => ⟨hdb,_,by rw [htold,ht],hm⟩

theorem solo_granted {success : Packet} {granted : Bool} {msg : Text} (ht : w.told i = w₀.told i)
    (hm : initCommandPacket .reply msg = success) (hg : granted = true) :
    Solo lib Faultless i (sendMsg msg) (fun _ => AnsweredBy i w₀ success granted) w :=
  Machine.wlp_mono _ (fun _ _ h => h.2) (solo_answer ht (iff_of_true hm hg))

theorem solo_denied {success : Packet} {granted : Bool} {msg : Text} (ht : w.told i = w₀.told i)
    (hm : initCommandPacket .reply msg ≠ success) (hg : granted = false) :
    Solo lib Faultless i (sendMsg msg) (fun _ => AnsweredBy i w₀ success granted) w :=
  Machine.wlp_mono _ (fun _ _ h => h.2)
    (solo_answer ht (iff_of_false hm fun h => Bool.false_ne_true (hg.symm.trans h)))

theorem solo_holds {o : Op} {f : o.Res → Server β} {Q : β → World ι → Prop} (ho : o.hushed = true)
    (hf : ∀ c r w', c ≠ .fault → execute lib o i w c = some (r,w') → Hushed i w w' →
      Solo lib Faultless i (f r) Q w') : Solo lib Faultless i (perform o >>= f) Q w :=
  fun c r w' hc hx => hf c r w' hc hx (execute_hushed ho hx)

theorem solo_storeFilePath {h : Text} {f : Option Text → Server β} {Q : β → World ι → Prop}
    (hroom : (storePath w.node.storeDir h).length < maxPathLen)
    (hf : Solo lib Faultless i (f (some (storePath w.node.storeDir h))) Q w) :
    Solo lib Faultless i (buildStoreFilePath h >>= f) Q w := by
  have hpath : bounded maxPathLen (w.node.storeDir ++ '/'::h) =
      some (storePath w.node.storeDir h) := if_pos hroom
  intro c r w₁ hc hx
  obtain ⟨hr,rfl⟩ := execute_storeDir hx
  rcases hr with rfl | rfl
  · have hnext : Solo lib Faultless i
        ((pure (bounded maxPathLen (w₁.node.storeDir ++ '/'::h)) : Server _) >>= f) Q w₁ := by
      rw [hpath]
      exact hf
    exact hnext
  · cases c <;> simp [execute] at hx
    exact absurd rfl hc

end Rules

section Commands

variable {ι : Type} [DecidableEq ι] {lib : Library} {i : ι} {w : World ι}

theorem solo_mkdir_answer (ctx : ClientContext) (arg : Text) :
    Solo lib Faultless i (handleMkdir ctx arg) (fun _ => AnsweredBy i w CmdType.mkdir.success
      (w.db.vacant ctx arg)) w := by
  unfold handleMkdir
  split
  · rename_i ha
    exact solo_denied rfl (by decide) (by simp [Db.vacant,ha])
  rename_i ha
  refine solo_strcpy fun _ => solo_strcpy fun _ => ?_
  split
  · rename_i hvalid
    refine solo_getNodeByPath faultless_statements ?_
    cases hl : w.db.lookup ctx.userId (absPath ctx.currentPath arg) with
    | some node => exact solo_denied rfl (by decide) (by simp [Db.vacant,hl])
    | none =>
      have hv : w.db.vacant ctx arg = true := vacant_iff.mpr ⟨ha,hvalid,hl⟩
      obtain ⟨-,-,-,hn⟩ := vacant_true hv
      refine solo_sql faultless_statements ?_
      simp only [Statement.exec,hn,Option.isSome_none,Bool.false_eq_true,if_false]
      exact solo_granted rfl rfl hv
  · rename_i hvalid
    exact solo_denied rfl (by decide) (by simp [Db.vacant,hvalid])

theorem solo_rmdir_answer (ctx : ClientContext) (arg : Text) :
    Solo lib Faultless i (handleRmdir ctx arg) (fun _ => AnsweredBy i w CmdType.rmdir.success
      (w.db.clearable ctx arg)) w := by
  unfold handleRmdir
  split
  · rename_i ha
    exact solo_denied rfl (by decide) (by simp [Db.clearable,ha])
  rename_i ha
  refine solo_strcpy fun _ => solo_getNodeByPath faultless_statements ?_
  rcases hl : w.db.lookup ctx.userId (absPath ctx.currentPath arg) with _ | ⟨id,type⟩
  · exact solo_denied rfl (by decide) (by simp [Db.clearable,hl])
  dsimp only
  split
  · rename_i ht
    exact solo_denied rfl (by decide) (by simp [Db.clearable,hl,ht])
  rename_i ht
  refine solo_bind (solo_sql faultless_statements ?_)
  simp only [Statement.exec]
  cases hany : w.db.paths.any fun r => r.userId = ctx.userId ∧ r.parentId = id with
  | true =>
    refine solo_denied rfl (by decide) ?_
    unfold Db.clearable
    rw [hl]
    dsimp only
    rw [hany,Bool.not_true,Bool.and_false,Bool.and_false]
  | false =>
    refine solo_sql faultless_statements (solo_granted rfl rfl ?_)
    unfold Db.clearable
    rw [hl]
    dsimp only
    rw [hany,decide_eq_true ha,decide_eq_true ht]
    rfl

theorem solo_emptyNode {ctx : ClientContext} {path fileName : Text}
    (hn : w.db.nodeAt ctx.userId path = none)
    (hroom : (storePath w.node.storeDir emptyFileSha256).length < maxPathLen) :
    Solo lib Faultless i (createEmptyFileNode ctx path fileName) (fun done w' => done = true ∧
      w'.db = w.db.link ctx.userId path ctx.currentDirId fileName emptyFileBytes 0 ∧
        w'.told i = w.told i) w := by
  refine solo_bind (solo_storeFilePath hroom ?_)
  intro c r w₁ hc hx
  have h₁ := execute_hushed (i := i) rfl hx
  obtain rfl : r = true := by
    cases c <;> simp [execute] at hx
    · exact hx.1
    · exact absurd rfl hc
  rw [← h₁.db] at hn ⊢
  refine solo_findHash faultless_statements emptyFile_hash emptyFile_unhex ?_
  cases hf : w₁.db.fileOf emptyFileBytes with
  | some r =>
    have hreuse : Solo lib Faultless i (reuseEmptyFile ctx path fileName r.id >>= Program.ret)
        (fun done w' => done = true ∧ w'.db = w₁.db.link ctx.userId path ctx.currentDirId fileName
          emptyFileBytes 0 ∧ w'.told i = w.told i) w₁ :=
      solo_linkRow faultless_statements hn ⟨rfl,by simp [Db.link,hf],h₁.told⟩
    rw [Program.bind_ret] at hreuse
    exact hreuse
  | none =>
    refine solo_fileInsert faultless_statements emptyFile_hash emptyFile_unhex (by simp [hf])
      fun _ => ?_
    refine solo_linkNew (w := { w₁ with db := w₁.db.addFile emptyFileBytes 0 })
      faultless_statements hn ?_
    exact ⟨rfl,by simp [Db.link,hf],h₁.told⟩

theorem solo_touch_answer (ctx : ClientContext) (arg : Text)
    (hroom : (storePath w.node.storeDir emptyFileSha256).length < maxPathLen) :
    Solo lib Faultless i (handleTouch ctx arg) (fun _ w' =>
      w'.db = w.db.touch ctx arg emptyFileBytes ∧
        AnsweredBy i w CmdType.touch.success (w.db.vacant ctx arg) w') w := by
  have hdenied : ∀ {msg} {w₁ : World ι}, w₁.told i = w.told i → w₁.db = w.db →
      initCommandPacket .reply msg ≠ CmdType.touch.success → w.db.vacant ctx arg = false →
      Solo lib Faultless i (sendMsg msg) (fun _ w' => w'.db = w.db.touch ctx arg emptyFileBytes ∧
        AnsweredBy i w CmdType.touch.success (w.db.vacant ctx arg) w') w₁ := by
    intro msg w₁ ht hdb hm hv
    have hdenial : initCommandPacket .reply msg = CmdType.touch.success ↔
        w.db.vacant ctx arg = true :=
      iff_of_false hm fun h => Bool.false_ne_true (hv.symm.trans h)
    refine Machine.wlp_mono _ ?_ (solo_answer ht hdenial)
    rintro _ w' ⟨hdb',ha⟩
    refine ⟨?_,ha⟩
    rw [hdb',hdb,Db.touch,hv]
    rfl
  unfold handleTouch
  split
  · rename_i ha
    exact hdenied rfl rfl (by decide) (by simp [Db.vacant,ha])
  rename_i ha
  refine solo_strcpy fun _ => solo_strcpy fun _ => ?_
  split
  · rename_i hvalid
    refine solo_getNodeByPath faultless_statements ?_
    cases hl : w.db.lookup ctx.userId (absPath ctx.currentPath arg) with
    | some node => exact hdenied rfl rfl (by decide) (by simp [Db.vacant,hl])
    | none =>
      have hv : w.db.vacant ctx arg = true := vacant_iff.mpr ⟨ha,hvalid,hl⟩
      refine solo_bind (Machine.wlp_mono _ ?_ (solo_emptyNode (lookup_none hl) hroom))
      rintro done w₁ ⟨rfl,hdb,ht⟩
      refine Machine.wlp_mono _ ?_ (solo_answer ht (iff_of_true rfl hv))
      rintro _ w' ⟨hdb',ha⟩
      refine ⟨?_,ha⟩
      rw [hdb',hdb,Db.touch,if_pos hv]
  · rename_i hvalid
    exact hdenied rfl rfl (by decide) (by simp [Db.vacant,hvalid])

theorem solo_released {fileId : ℕ} {r : FileRow} (hr : w.db.fileWithId fileId = some r) :
    Solo lib Faultless i (releaseFileEntityIfUnused fileId)
      (fun done w' => done = true ∧ w'.told i = w.told i) w := by
  obtain ⟨r',hr',-,-⟩ := subRef_some hr
  have hunlink : ∀ h, Hush (unlinkStoreFile h) := by
    intro h
    refine Program.uses_bind _ _ (buildStoreFilePath_uses (fun o => o.hushed = true) rfl _)
      fun path => ?_
    cases path with
    | none => trivial
    | some path => exact ⟨rfl,fun _ => trivial⟩
  refine solo_sql faultless_statements ?_
  simp only [Statement.exec,hr]
  refine solo_sql faultless_statements (solo_sql faultless_statements ?_)
  simp only [Statement.exec,hr',Option.map_some]
  split
  · exact ⟨rfl,rfl⟩
  refine solo_after (hunlink _) fun _ w₁ h₁ => ?_
  unfold daoFileSourceDeleteByFileId
  split
  · exact solo_statement faultless_statements ⟨rfl,h₁.told⟩
  · exact solo_sql faultless_statements (solo_statement faultless_statements ⟨rfl,h₁.told⟩)

theorem solo_rm_answer (hw : w.db.Consistent) (ctx : ClientContext) (arg : Text) :
    Solo lib Faultless i (handleRm ctx arg) (fun _ => AnsweredBy i w CmdType.rm.success
      (w.db.removable ctx arg).isSome) w := by
  unfold handleRm
  split
  · rename_i ha
    exact solo_denied rfl (by decide) (by simp [Db.removable,ha])
  rename_i ha
  refine solo_strcpy fun _ => solo_getNodeByPath faultless_statements ?_
  rcases hl : w.db.lookup ctx.userId (absPath ctx.currentPath arg) with _ | ⟨id,type⟩
  · exact solo_denied rfl (by decide) (by simp [Db.removable,hl])
  dsimp only
  split
  · rename_i ht
    exact solo_denied rfl (by decide) (by simp [Db.removable,hl,ht])
  rename_i ht
  refine solo_getFileInfoByPath faultless_statements ?_
  rcases hi : w.db.fileInfo ctx.userId (absPath ctx.currentPath arg) with _ | ⟨_,fileId⟩
  · exact solo_denied rfl (by decide) (by simp [Db.removable,hl,hi])
  have hr : w.db.removable ctx arg = some (id,fileId) := by
    simp [Db.removable,ha,hl,ht,hi]
  obtain ⟨p,hp,-,-,-,htype,hfile⟩ := removable_row hr
  obtain ⟨r,hmem,hid⟩ := hw.counted.linked p hp htype
  obtain rfl : fileId = r.id := Option.some.inj (hfile.symm.trans hid)
  refine solo_bind (solo_sql faultless_statements ?_)
  refine Machine.wlp_mono _ ?_ (solo_released (fileWithId_mem hw.keyed hmem))
  rintro done w₁ ⟨rfl,ht₁⟩
  exact solo_granted ht₁ rfl (by rw [hr]; rfl)

end Commands

end WindCloud
