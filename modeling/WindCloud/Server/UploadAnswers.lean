import WindCloud.Server.Answers

/-!
# Uploads in which nothing fails

Such an upload receives all it waits for, enters its file in the tables and says
so, or it is refused at the start and changes nothing.
-/

set_option autoImplicit false

namespace WindCloud
open CString Hex Effect Function

def Db.receivable (db : Db) (ctx : ClientContext) (arg : Text) : Bool :=
  (buildFullVirtualPath fullPathLen ctx arg).isSome && db.vacant ctx arg

/-- The session and the name of an upload that is not refused. -/
def Db.uploadable (db : Db) (userId : ℤ) (fullPath : Text) : Option (ClientContext × Text) :=
  (db.transferContext userId fullPath).filter fun e => db.receivable e.1 e.2

section Uploads

variable {ι : Type} [DecidableEq ι] {lib : Library} {ok : Op → World ι → Choice → Prop} {i : ι}
  {w v : World ι} {ctx : ClientContext} {arg path fileName fullPath : Text} {packet : FilePacket}
  {bs : List ℕ} {α β : Type}

/-- The nodes and the files are those of `db`, and the peer was told of nothing but
success. -/
structure Accepted (i : ι) (w : World ι) (db : Db) (w' : World ι) : Prop where
  paths : w'.db.paths = db.paths
  files : w'.db.files = db.files
  told : w'.told i = w.told i ∨ w'.told i = w.told i ++ [CmdType.puts.success]

/-- The tables are as they were, and the peer was told that it failed. -/
structure Declined (i : ι) (w w' : World ι) : Prop where
  db : w'.db = w.db
  told : ∃ p, p ≠ CmdType.puts.success ∧ w'.told i = w.told i ++ [p]

theorem solo_declined {msg : Text} (hv : Hushed i w v)
    (hm : initCommandPacket .reply msg ≠ CmdType.puts.success) :
    Solo lib Faultless i (sendMsg msg) (fun _ => Declined i w) v :=
  solo_text fun _ hdb ht => ⟨hdb.trans hv.db,_,hm,by rw [ht,hv.told]⟩

theorem solo_entered (hok : StatementsHold ok) {h : Text} {size : ℤ} (hk : w.db.Keyed)
    (hh : IsHash h) (hb : unhex h = some bs) (hn : w.db.nodeAt ctx.userId path = none) :
    Solo lib ok i (finishUploadDbWork ctx path fileName h size) (fun done w' =>
      w'.told i = w.told i ∧
        w'.db.paths = (w.db.link ctx.userId path ctx.currentDirId fileName bs size).paths ∧
        w'.db.files = (w.db.link ctx.userId path ctx.currentDirId fileName bs size).files ∧
        (done = true ↔ registrable w.node.address = true)) w := by
  have hregister : ∀ fileId (w₁ : World ι), fileId ≠ 0 →
      w₁.db = w.db.link ctx.userId path ctx.currentDirId fileName bs size → w₁.node = w.node →
      Solo lib ok i (registerSource fileId) (fun done w' => w'.told i = w.told i ∧
        w'.db.paths = (w.db.link ctx.userId path ctx.currentDirId fileName bs size).paths ∧
        w'.db.files = (w.db.link ctx.userId path ctx.currentDirId fileName bs size).files ∧
        (done = true ↔ registrable w.node.address = true)) w₁ := by
    intro fileId w₁ hid hdb hnode
    refine Machine.wlp_mono _ ?_ (solo_recordSource hok hid)
    rintro done w' ⟨ht,hp,hf,hd⟩
    rw [hnode] at hd
    rw [hdb] at hp hf
    exact ⟨ht.trans (told_same (by rw [hnode])),hp,hf,hd⟩
  refine solo_fileInsert hok hh hb ?_ ?_
  · intro hold
    obtain ⟨r,hr⟩ := Option.isSome_iff_exists.mp hold
    refine solo_findHash hok hh hb ?_
    rw [hr]
    refine solo_linkRow hok hn ?_
    exact hregister r.id _ (hk.fileIds.positive r (fileOf_some hr).1).ne' (by simp [Db.link,hr]) rfl
  · intro hnew
    change Solo lib ok i (linkUpload ctx path fileName w.db.nextFile false) _
      { w with db := w.db.addFile bs size }
    unfold linkUpload createUserFileLink
    rw [Program.bind_bind]
    refine solo_linkNew (w := { w with db := w.db.addFile bs size }) hok hn ?_
    exact hregister w.db.nextFile _ hk.fileIds.counter.ne' (by simp [Db.link,hnew]) rfl

section Loops

variable {Q : β → World ι → Prop}

theorem solo_ready {h : Text} {size : ℤ} {f : Option Bool → Server β}
    (hroom : (storePath w.node.storeDir h).length < maxPathLen)
    (hf : ∀ ready, Solo lib Faultless i (f (some ready)) Q w) :
    Solo lib Faultless i (checkStoreFileReady h size >>= f) Q w := by
  refine solo_bind (solo_storeFilePath hroom fun c st w₁ hc hx => ?_)
  obtain rfl : w₁ = w := execute_quiet rfl hx
  rcases st with _ | expected | _
  · exact hf false
  · exact hf (decide (expected = size))
  · have hstat : execute lib (.stat (storePath w₁.node.storeDir h)) i w₁ c = some (.failed,w₁) := hx
    cases c <;> simp [execute] at hstat
    · split at hstat <;> cases hstat
    · exact absurd rfl hc

theorem solo_writeFull {buf : Content} {passes total : ℕ} {f : Bool → Server β} (hv : Hushed i w v)
    (hf : ∀ v', Hushed i w v' → Solo lib Faultless i (f true) Q v') :
    Solo lib Faultless i (writeFileFull buf passes total >>= f) Q v := by
  induction passes generalizing total v with
  | zero => exact hf v hv
  | succ passes ih =>
    unfold writeFileFull
    split
    · intro c r v₁ hc hx
      have hv₁ := hushed_trans hv (execute_hushed rfl hx)
      rcases execute_write hx with ⟨d,-,hpos,-,-⟩ | ⟨rfl,-⟩
      · have hr : (r : ℕ) ≠ 0 := hpos.ne'
        simp only [Program.pure_eq,Program.bind,hr,if_false]
        exact ih hv₁
      · exact absurd rfl hc
    · exact hf v hv

theorem solo_receivedMapped {localSize remaining : ℤ} {passes k : ℕ} {f : ℕ → Server β}
    (hk : remaining ≤ k+passes) (hv : Hushed i w v)
    (hf : ∀ (n : ℕ) v', remaining ≤ n → Hushed i w v' → Solo lib Faultless i (f n) Q v') :
    Solo lib Faultless i (receiveMapped localSize remaining passes k >>= f) Q v := by
  induction passes generalizing k v with
  | zero => exact hf k v (by omega) hv
  | succ passes ih =>
    unfold receiveMapped
    split
    · intro c r v₁ hc hx
      have hv₁ := hushed_trans hv (execute_hushed rfl hx)
      rcases execute_recvMapped hx with ⟨d,-,hpos,-,-,-⟩ | ⟨rfl,-⟩
      · have hr : (r : ℕ) ≠ 0 := hpos.ne'
        simp only [Program.pure_eq,Program.bind,hr,if_false]
        refine ih ?_ hv₁
        have hone : (1 : ℤ) ≤ (r : ℕ) := by exact_mod_cast hpos
        push_cast
        push_cast at hk
        omega
      · exact absurd rfl hc
    · rename_i hlast
      exact hf k v (by omega) hv

theorem solo_receivedBuffered {remaining : ℤ} {passes k : ℕ} {f : Option ℕ → Server β}
    (hk : remaining ≤ k+passes) (hv : Hushed i w v)
    (hf : ∀ (n : ℕ) v', remaining ≤ n → Hushed i w v' → Solo lib Faultless i (f (some n)) Q v') :
    Solo lib Faultless i (receiveBuffered remaining passes k >>= f) Q v := by
  induction passes generalizing k v with
  | zero => exact hf k v (by omega) hv
  | succ passes ih =>
    unfold receiveBuffered
    split
    · intro c r v₁ hc hx
      have hv₁ := hushed_trans hv (execute_hushed rfl hx)
      rcases execute_recv hx with ⟨n,hpos,-,hn,hr,-⟩ | ⟨rfl,-⟩
      · have hlen : (r : Content).length = n := by
          rw [hr,List.length_take]
          omega
        have hne : (r : Content) ≠ [] := by
          rintro h0
          rw [h0] at hlen
          simp only [List.length_nil] at hlen
          omega
        change Solo lib Faultless i ((if (r : Content) = [] then pure (some k)
          else writeFileFull r (r : Content).length 0 >>= fun done =>
            if done = true then receiveBuffered remaining passes (k+(r : Content).length)
            else pure none) >>= f) Q v₁
        rw [if_neg hne,bind_assoc]
        refine solo_writeFull hv₁ fun v₂ hv₂ => ih ?_ hv₂
        rw [hlen]
        push_cast
        push_cast at hk
        omega
      · exact absurd rfl hc
    · rename_i hlast
      exact hf k v (by omega) hv

end Loops

section Content

variable (hk : w.db.Keyed) (hn : w.db.nodeAt ctx.userId path = none) (hh : IsHash packet.hash)
  (hb : unhex packet.hash = some bs) (hreg : registrable w.node.address = true)

include hk hn hh hb hreg

theorem accepted_complete (hv : Hushed i w v) :
    Solo lib Faultless i (completeUpload ctx path fileName packet) (fun _ => Accepted i w
      (w.db.link ctx.userId path ctx.currentDirId fileName bs packet.fileSize)) v := by
  rw [← hv.db] at hk hn
  refine solo_bind (Machine.wlp_mono _ ?_ (solo_entered faultless_statements hk hh hb hn))
  rintro done v₁ ⟨ht,hp,hf,hd⟩
  obtain rfl := hd.mpr (hv.address ▸ hreg)
  rw [hv.db] at hp hf
  refine solo_bind (solo_text fun v₂ hdb ht₂ => ?_)
  refine solo_hushed hush_close fun _ w' h => ⟨?_,?_,.inr ?_⟩
  · rw [h.db,hdb,hp]
  · rw [h.db,hdb,hf]
  · rw [h.told,ht₂,ht,hv.told]
    rfl

theorem accepted_end {localSize : ℤ} {n : ℕ} (hall : packet.fileSize-localSize ≤ n)
    (hv : Hushed i w v) :
    Solo lib Faultless i (endUpload ctx path fileName packet localSize n) (fun _ => Accepted i w
      (w.db.link ctx.userId path ctx.currentDirId fileName bs packet.fileSize)) v := by
  unfold endUpload
  rw [if_neg (by omega)]
  exact accepted_complete hk hn hh hb hreg hv

theorem accepted_receive {localSize : ℤ} (h0 : 0 ≤ localSize) (hsize : 0 < packet.fileSize)
    (hv : Hushed i w v) :
    Solo lib Faultless i (receiveContent ctx path fileName packet localSize) (fun _ => Accepted i w
      (w.db.link ctx.userId path ctx.currentDirId fileName bs packet.fileSize)) v := by
  have hpasses : packet.fileSize-localSize ≤
      (0 : ℕ)+((packet.fileSize-localSize).toNat : ℤ) := by omega
  unfold receiveContent
  split
  · refine solo_holds rfl fun c r v₁ hc hx hv₁ => ?_
    obtain ⟨rfl,⟨rfl,rfl⟩ | ⟨rfl,-⟩⟩ := execute_mmap hx
    · rw [decide_eq_true hsize]
      exact solo_receivedMapped hpasses hv fun n v₂ hall hv₂ =>
        accepted_end hk hn hh hb hreg hall hv₂
    · exact absurd rfl hc
  · refine solo_holds rfl fun c r v₁ hc hx hv₁ => ?_
    rcases execute_lseek hx with ⟨d,-,-,-,rfl,-⟩ | ⟨-,hneg,-⟩ | ⟨rfl,-⟩
    · exact solo_receivedBuffered hpasses (hushed_trans hv hv₁) fun n v₂ hall hv₂ =>
        accepted_end hk hn hh hb hreg hall hv₂
    · omega
    · exact absurd rfl hc

theorem accepted_resume {localSize : ℤ} (h0 : 0 ≤ localSize) (hsize : 0 ≤ packet.fileSize)
    (hv : Hushed i w v) :
    Solo lib Faultless i (resumeUpload ctx arg path fileName packet localSize) (fun _ =>
      Accepted i w (w.db.link ctx.userId path ctx.currentDirId fileName bs packet.fileSize)) v := by
  refine solo_holds rfl fun c r v₁ hc hx hv₁ => ?_
  rcases execute_send hx with ⟨-,rfl,-⟩ | ⟨rfl,-⟩
  swap
  · exact absurd rfl hc
  have hw₁ := hushed_trans hv hv₁
  rw [if_pos rfl]
  split
  · exact accepted_complete hk hn hh hb hreg hw₁
  refine solo_holds rfl fun c r v₂ hc hx hv₂ => ?_
  rcases execute_ftruncate hx with ⟨d,-,-,-,rfl,-⟩ | ⟨-,hneg,-⟩ | ⟨rfl,-⟩
  · have hw₂ := hushed_trans hw₁ hv₂
    rw [if_pos rfl]
    split
    · exact accepted_complete hk hn hh hb hreg hw₂
    · exact accepted_receive hk hn hh hb hreg h0 (by omega) hw₂
  · omega
  · exact absurd rfl hc

theorem accepted_content (hsize : 0 ≤ packet.fileSize) (hv : Hushed i w v)
    (hroom : (storePath v.node.storeDir packet.hash).length < maxPathLen) :
    Solo lib Faultless i (uploadContent ctx arg path fileName packet) (fun _ =>
      Accepted i w (w.db.link ctx.userId path ctx.currentDirId fileName bs packet.fileSize)) v := by
  refine solo_storeFilePath hroom (solo_holds rfl fun c r v₁ hc hx hv₁ => ?_)
  have hw₁ := hushed_trans hv hv₁
  obtain rfl : r = true := by
    cases c <;> simp [execute] at hx
    · exact hx.1
    · exact absurd rfl hc
  rw [if_pos rfl]
  refine solo_holds rfl fun c r v₂ hc hx hv₂ => ?_
  have hw₂ := hushed_trans hw₁ hv₂
  obtain ⟨-,⟨d,-,-,rfl⟩ | ⟨rfl,-⟩⟩ := execute_fstat hx
  · simp only [Option.getD_some]
    split
    · exact solo_holds rfl fun c r v₃ hc hx hv₃ =>
        accepted_resume hk hn hh hb hreg le_rfl hsize (hushed_trans hw₂ hv₃)
    · exact accepted_resume hk hn hh hb hreg (Int.natCast_nonneg _) hsize hw₂
  · exact absurd rfl hc

theorem accepted_store (hsize : 0 ≤ packet.fileSize)
    (hroom : (storePath w.node.storeDir packet.hash).length < maxPathLen) :
    Solo lib Faultless i (storeContent ctx arg path fileName packet) (fun _ =>
      Accepted i w (w.db.link ctx.userId path ctx.currentDirId fileName bs packet.fileSize)) w := by
  refine solo_findHash faultless_statements hh hb ?_
  cases hf : w.db.fileOf bs with
  | none => exact accepted_content hk hn hh hb hreg hsize (hushed_refl w) hroom
  | some r =>
    refine solo_ready hroom fun ready => ?_
    cases ready with
    | false => exact accepted_content hk hn hh hb hreg hsize (hushed_refl w) hroom
    | true =>
      refine solo_linkRow faultless_statements hn ?_
      refine solo_hushed ⟨rfl,fun _ => trivial⟩ fun _ w' h => ⟨?_,?_,.inl h.told⟩
      · rw [h.db,Db.link,hf]
      · rw [h.db,Db.link,hf]

end Content

section Handlers

def UploadAnswered (i : ι) (w : World ι) (granted : Bool) (db : Db) (w' : World ι) : Prop :=
  (granted = true → Accepted i w db w') ∧ (granted = false → Declined i w w')

theorem solo_refused {msg : Text} {granted : Bool} {db : Db} (hv : Hushed i w v)
    (hg : granted = false) (hm : initCommandPacket .reply msg ≠ CmdType.puts.success) :
    Solo lib Faultless i (sendMsg msg) (fun _ => UploadAnswered i w granted db) v :=
  Machine.wlp_mono _ (fun _ _ h => ⟨fun h' => absurd (hg.symm.trans h') Bool.false_ne_true,fun _ => h⟩)
    (solo_declined hv hm)

theorem solo_puts_answer (hk : w.db.Keyed) (hh : IsHash (w.node.conn i).hello.hash)
    (hb : unhex (w.node.conn i).hello.hash = some bs) (hreg : registrable w.node.address = true)
    (hsize : 0 ≤ (w.node.conn i).hello.fileSize)
    (hroom : (storePath w.node.storeDir (w.node.conn i).hello.hash).length < maxPathLen)
    (ctx : ClientContext) (arg : Text) :
    Solo lib Faultless i (handlePuts ctx arg) (fun _ => UploadAnswered i w
      (w.db.receivable ctx arg) (w.db.upload ctx arg bs (w.node.conn i).hello.fileSize)) w := by
  intro c r w₁ hc hx
  obtain ⟨hr,rfl⟩ := execute_recvFile hx
  rcases hr with rfl | rfl
  swap
  · cases c <;> simp [server,execute] at hx
    exact absurd rfl hc
  generalize (w₁.node.conn i).hello = packet at *
  dsimp only
  cases hpath : buildFullVirtualPath fullPathLen ctx arg with
  | none => exact solo_refused (hushed_refl w₁) (by simp [Db.receivable,hpath]) (by decide)
  | some fullPath =>
    obtain ⟨rfl,hcheck,-,-⟩ := transferFullPath_eq hpath
    have hne : arg ≠ [] := by
      rintro rfl
      exact absurd hcheck (by decide)
    refine solo_strcpy fun _ => ?_
    split
    · rename_i hvalid
      refine solo_getNodeByPath faultless_statements ?_
      cases hl : w₁.db.lookup ctx.userId (absPath ctx.currentPath arg) with
      | some node =>
        refine solo_holds rfl fun _ _ v _ _ hv => ?_
        exact solo_refused hv (by simp [Db.receivable,Db.vacant,hl]) (by decide)
      | none =>
        have hv : w₁.db.vacant ctx arg = true := vacant_iff.mpr ⟨hne,hvalid,hl⟩
        have hg : w₁.db.receivable ctx arg = true := by simp [Db.receivable,hpath,hv]
        have hnonempty : packet.hash ≠ [] := by
          rintro h0
          rw [h0] at hh
          exact absurd hh (by decide)
        dsimp only
        rw [if_neg hnonempty]
        refine Machine.wlp_mono _ ?_
          (accepted_store hk (lookup_none hl) hh hb hreg hsize hroom)
        exact fun _ w' h => ⟨fun _ => h,fun h' => absurd (hg.symm.trans h') (by decide)⟩
    · rename_i hvalid
      exact solo_refused (hushed_refl w₁) (by simp [Db.receivable,Db.vacant,hvalid]) (by decide)

theorem solo_upload_answer (hk : w.db.Keyed) (hh : IsHash (w.node.conn i).hello.hash)
    (hb : unhex (w.node.conn i).hello.hash = some bs) (hreg : registrable w.node.address = true)
    (hsize : 0 ≤ (w.node.conn i).hello.fileSize)
    (hroom : (storePath w.node.storeDir (w.node.conn i).hello.hash).length < maxPathLen)
    (userId : ℤ) (fullPath : Text) :
    Solo lib Faultless i (serveUpload userId fullPath) (fun _ w' =>
      (w.db.uploadable userId fullPath = none → Declined i w w') ∧
        ∀ ctx arg, w.db.uploadable userId fullPath = some (ctx,arg) →
          Accepted i w (w.db.upload ctx arg bs (w.node.conn i).hello.fileSize) w') w := by
  have hfail : ∀ fileName, w.db.uploadable userId fullPath = none → Solo lib Faultless i
      (failPutsRequest fileName "上传失败：目标目录不存在".toList) (fun _ w' =>
        (w.db.uploadable userId fullPath = none → Declined i w w') ∧
          ∀ ctx arg, w.db.uploadable userId fullPath = some (ctx,arg) →
            Accepted i w (w.db.upload ctx arg bs (w.node.conn i).hello.fileSize) w') w := by
    intro fileName hnone c r w₁ hc hx
    obtain ⟨hr,rfl⟩ := execute_recvFile hx
    rcases hr with rfl | rfl
    swap
    · cases c <;> simp [server,execute] at hx
      exact absurd rfl hc
    refine solo_holds rfl fun _ _ v _ _ hv => ?_
    refine Machine.wlp_mono _ ?_ (solo_declined hv (by decide))
    exact fun _ w' h => ⟨fun _ => h,fun _ _ he => absurd (hnone.symm.trans he) (by simp)⟩
  have hserve : ∀ ctx arg, w.db.transferContext userId fullPath = some (ctx,arg) →
      Solo lib Faultless i (handlePuts ctx arg) (fun _ w' =>
        (w.db.uploadable userId fullPath = none → Declined i w w') ∧
          ∀ ctx arg, w.db.uploadable userId fullPath = some (ctx,arg) →
            Accepted i w (w.db.upload ctx arg bs (w.node.conn i).hello.fileSize) w') w := by
    intro ctx arg hctx
    have hfilter : w.db.uploadable userId fullPath =
        if w.db.receivable ctx arg then some (ctx,arg) else none := by
      rw [Db.uploadable,hctx]
      rfl
    refine Machine.wlp_mono _ ?_ (solo_puts_answer hk hh hb hreg hsize hroom ctx arg)
    rintro _ w' ⟨haccepted,hdeclined⟩
    rw [hfilter]
    cases hg : w.db.receivable ctx arg with
    | false => exact ⟨fun _ => hdeclined hg,fun _ _ he => absurd he (by simp)⟩
    | true =>
      refine ⟨fun he => absurd he (by simp),fun ctx' arg' he => ?_⟩
      obtain ⟨rfl,rfl⟩ : ctx = ctx' ∧ arg = arg' := by simpa using he
      exact haccepted hg
  unfold serveUpload buildTransferContext
  cases hsplit : splitFullPath fullPath 256 fileNameLen with
  | none => exact hfail _ (by simp [Db.uploadable,Db.transferContext,hsplit])
  | some e =>
    obtain ⟨parent,fileName⟩ := e
    dsimp only
    split
    · rename_i hroot
      exact hserve _ _ (by rw [Db.transferContext,hsplit]; exact if_pos hroot)
    · rename_i hroot
      have hctx : w.db.transferContext userId fullPath =
          (w.db.lookup userId parent).bind fun e =>
            if e.2 ≠ 1 then none else some (⟨userId,parent.take 255,e.1⟩,fileName) := by
        unfold Db.transferContext
        rw [hsplit]
        dsimp only
        rw [if_neg hroot]
        rcases w.db.lookup userId parent with _ | ⟨dirId,nodeType⟩ <;> rfl
      rw [Program.bind_bind]
      refine solo_getNodeByPath faultless_statements ?_
      rcases hl : w.db.lookup userId parent with _ | ⟨dirId,nodeType⟩
      · rw [hl] at hctx
        exact hfail _ (by rw [Db.uploadable,hctx]; rfl)
      · rw [hl,Option.bind_some] at hctx
        dsimp only at hctx ⊢
        by_cases ht : nodeType = 1
        · rw [if_neg (not_not.mpr ht)] at hctx ⊢
          exact hserve _ _ hctx
        · rw [if_pos ht] at hctx ⊢
          exact hfail _ (by rw [Db.uploadable,hctx]; rfl)

end Handlers

end Uploads

end WindCloud
