import WindCloud.Server.UploadAnswers

/-!
# Requests in which nothing fails, over whole runs

In a reachable state such a request makes the change it names whenever its
argument is proper and the drive has room for the change, and otherwise none;
and its client is told of success exactly in the first case.
-/

set_option autoImplicit false

namespace WindCloud
open CString Effect Function Runs Shelf

/-- What a command needs besides room for its change: an argument, a valid name,
and for `rmdir` a directory without entries. -/
def CmdType.proper (db : Db) (ctx : ClientContext) (data : Text) : CmdType → Bool
  | .mkdir | .touch => decide (data ≠ []) && isValidVfsName (baseName (absPath ctx.currentPath data)) &&
      decide (absPath ctx.currentPath data ≠ "/".toList)
  | .rm => decide (data ≠ []) && decide (absPath ctx.currentPath data ≠ "/".toList)
  | .rmdir => decide (data ≠ []) && decide (absPath ctx.currentPath data ≠ "/".toList) &&
      ((db.nodeAt ctx.userId (absPath ctx.currentPath data)).all fun p =>
        !db.paths.any fun r => r.userId = ctx.userId ∧ r.parentId = p.id)
  | _ => true

/-- What an upload needs besides room for its file: a directory for it, and a single
valid name whose path fits. -/
def properUpload (db : Db) (userId : ℤ) (fullPath : Text) : Bool :=
  (db.transferContext userId fullPath).any fun e =>
    (buildFullVirtualPath fullPathLen e.1 e.2).isSome &&
      isValidVfsName (baseName (absPath e.1.currentPath e.2)) &&
        decide (absPath e.1.currentPath e.2 ≠ "/".toList)

/-- What a request needs besides room for its change. -/
def Round.proper {C : Type} (s : Site Unit) (e : Round C) : Bool :=
  match e.request with
  | .connect _ => true
  | .command k cmdType data => cmdType.proper s.world.db (s.sessions k) data
  | .upload userId fullPath _ => properUpload s.world.db userId fullPath

/-- From `db` to `db'` the change was tried if it is proper, and `granted` says
whether it was made. -/
structure Tried (proper : Bool) (d : Change) (db db' : Db) (granted : Bool) : Prop where
  label : db'.label = if proper then attempt Option.isNone db.label d else db.label
  granted : granted = true ↔ proper = true ∧ (enact Option.isNone db.label d).isSome = true

section Tables

variable {db db' : Db} {ctx : ClientContext} {data : Text} {proper granted : Bool} {d : Change}

theorem tried_of (hgranted : granted = true ↔ proper = true ∧
      (enact Option.isNone db.label d).isSome = true)
    (hmade : granted = true → enact Option.isNone db.label d = some db'.label)
    (hkept : granted = false → db'.label = db.label) : Tried proper d db db' granted := by
  refine ⟨?_,hgranted⟩
  cases granted with
  | true =>
    rw [if_pos (hgranted.mp rfl).1,attempt,hmade rfl,Option.getD_some]
  | false =>
    rw [hkept rfl]
    split
    · rename_i hp
      have hnone : enact Option.isNone db.label d = none := by
        by_contra hne
        exact absurd (hgranted.mpr ⟨hp,Option.isSome_iff_ne_none.mpr hne⟩) (by decide)
      rw [attempt,hnone,Option.getD_none]
    · rfl

/-- A place is free when no row is there. -/
theorem label_eq_none (h : db.Consistent) (n : Place) :
    db.label n = none ↔ db.nodeAt n.1 n.2 = none := by
  constructor
  · intro hl
    by_contra hn
    obtain ⟨p,hp⟩ := Option.ne_none_iff_exists'.mp hn
    by_cases ht : p.type = 0
    · obtain ⟨r,hr,hid⟩ := h.counted.linked p (nodeAt_some hp).1 ht
      rw [label_file h.keyed hp ht hr hid] at hl
      cases hl
    · rw [Db.label,hp,Option.bind_some,if_neg ht] at hl
      cases hl
  · intro hn
    rw [Db.label,hn]
    rfl

theorem label_kind (h : db.Consistent) {n : Place} {p : PathRow} (hp : db.nodeAt n.1 n.2 = some p) :
    (db.label n).map Option.isNone = some (decide (p.type ≠ 0)) := by
  by_cases ht : p.type = 0
  · obtain ⟨r,hr,hid⟩ := h.counted.linked p (nodeAt_some hp).1 ht
    rw [label_file h.keyed hp ht hr hid,ht]
    rfl
  · rw [Db.label,hp,Option.bind_some,if_neg ht,decide_eq_true ht]
    rfl

theorem room_put (h : db.Consistent) (n : Place) (l : Label) :
    (enact Option.isNone db.label (.put n l)).isSome = true ↔ db.nodeAt n.1 n.2 = none := by
  rw [← label_eq_none h]
  cases hl : db.label n with
  | none => simp [enact,hl]
  | some l' => simp [enact,hl]

theorem room_take (h : db.Consistent) (n : Place) (k : Bool) :
    (enact Option.isNone db.label (.take n k)).isSome = true ↔
      ∃ p, db.nodeAt n.1 n.2 = some p ∧ decide (p.type ≠ 0) = k := by
  cases hp : db.nodeAt n.1 n.2 with
  | none =>
    rw [enact,(label_eq_none h n).mpr hp]
    simp
  | some p =>
    rw [enact,label_kind h hp]
    by_cases hk : decide (p.type ≠ 0) = k
    · rw [if_pos (congrArg some hk)]
      exact iff_of_true rfl ⟨p,rfl,hk⟩
    · rw [if_neg fun he => hk (Option.some.inj he)]
      refine iff_of_false (by simp) ?_
      rintro ⟨q,hq,hk'⟩
      obtain rfl := Option.some.inj hq
      exact hk hk'

theorem lookup_eq_none {userId : ℤ} {path : Text} :
    db.lookup userId path = none ↔ path ≠ "/".toList ∧ db.nodeAt userId path = none := by
  unfold Db.lookup
  split
  · rename_i hroot
    exact iff_of_false (by simp) fun h => h.1 hroot
  · rename_i hroot
    rw [Option.map_eq_none_iff]
    exact ⟨fun h => ⟨hroot,h⟩,fun h => h.2⟩

theorem lookup_node {userId : ℤ} {path : Text} (hroot : path ≠ "/".toList) :
    db.lookup userId path = (db.nodeAt userId path).map fun r => (r.id,r.type) :=
  if_neg hroot

theorem vacant_proper : db.vacant ctx data = true ↔ CmdType.mkdir.proper db ctx data = true ∧
    db.nodeAt ctx.userId (absPath ctx.currentPath data) = none := by
  rw [vacant_iff,lookup_eq_none]
  simp only [CmdType.proper,Bool.and_eq_true,decide_eq_true_eq]
  tauto

theorem tried_vacant (h : db.Consistent) {l : Label}
    (hmade : db.vacant ctx data = true → enact Option.isNone db.label
      (.put (ctx.userId,absPath ctx.currentPath data) l) = some db'.label)
    (hkept : db.vacant ctx data = false → db' = db) :
    Tried (CmdType.mkdir.proper db ctx data) (.put (ctx.userId,absPath ctx.currentPath data) l)
      db db' (db.vacant ctx data) := by
  refine tried_of ?_ hmade fun hv => by rw [hkept hv]
  rw [room_put h]
  exact vacant_proper

theorem tried_mkdir (h : db.Consistent) : Tried (CmdType.mkdir.proper db ctx data)
    (.put (ctx.userId,absPath ctx.currentPath data) none) db (db.mkdir ctx data)
      (db.vacant ctx data) :=
  tried_vacant h (enact_mkdir h) fun hv => by rw [Db.mkdir,hv]; rfl

theorem tried_touch (h : db.Consistent) : Tried (CmdType.touch.proper db ctx data)
    (.put (ctx.userId,absPath ctx.currentPath data) (some emptyFileSha256)) db
      (db.touch ctx data emptyFileBytes) (db.vacant ctx data) :=
  tried_vacant h (enact_touch h) fun hv => by rw [Db.touch,hv]; rfl

theorem removable_proper (h : db.Consistent) : (db.removable ctx data).isSome = true ↔
    CmdType.rm.proper db ctx data = true ∧
      ∃ p, db.nodeAt ctx.userId (absPath ctx.currentPath data) = some p ∧
        decide (p.type ≠ 0) = false := by
  simp only [CmdType.proper,Bool.and_eq_true,decide_eq_true_eq]
  unfold Db.removable
  by_cases ha : data = []
  · simp [ha]
  rw [if_neg ha]
  by_cases hroot : absPath ctx.currentPath data = "/".toList
  · rw [Db.lookup,if_pos hroot]
    exact iff_of_false (by simp) fun hc => hc.1.2 hroot
  rw [lookup_node hroot,Db.fileInfo]
  cases hp : db.nodeAt ctx.userId (absPath ctx.currentPath data) with
  | none => exact iff_of_false (by simp) (by simp)
  | some p =>
    simp only [Option.map_some]
    by_cases ht : p.type = 0
    · obtain ⟨r,-,hid⟩ := h.counted.linked p (nodeAt_some hp).1 ht
      rw [ht,hid]
      exact iff_of_true rfl ⟨⟨ha,hroot⟩,p,rfl,by simp [ht]⟩
    · refine iff_of_false ?_ ?_
      · split <;> simp
      · rintro ⟨-,q,hq,hk⟩
        obtain rfl := Option.some.inj hq
        exact ht (by simpa using hk)

theorem tried_rm (h : db.Consistent) : Tried (CmdType.rm.proper db ctx data)
    (.take (ctx.userId,absPath ctx.currentPath data) false) db (db.rm ctx data)
      (db.removable ctx data).isSome := by
  refine tried_of ?_ (fun hr => ?_) fun hr => ?_
  · rw [room_take h]
    exact removable_proper h
  · obtain ⟨⟨id,fileId⟩,hr⟩ := Option.isSome_iff_exists.mp hr
    exact enact_rm h hr
  · rw [Option.isSome_eq_false_iff,Option.isNone_iff_eq_none] at hr
    rw [Db.rm,hr]

theorem clearable_node : db.clearable ctx data = true ↔ data ≠ [] ∧ ∃ id type,
    db.lookup ctx.userId (absPath ctx.currentPath data) = some (id,type) ∧ type ≠ 0 ∧
      (db.paths.any fun r => r.userId = ctx.userId ∧ r.parentId = id) = false := by
  unfold Db.clearable
  rw [Bool.and_eq_true,decide_eq_true_eq]
  refine and_congr_right fun _ => ?_
  rcases db.lookup ctx.userId (absPath ctx.currentPath data) with _ | ⟨id,type⟩
  · simp
  · simp only [Bool.and_eq_true,decide_eq_true_eq,Bool.not_eq_true',Option.some.injEq,
      Prod.mk.injEq]
    constructor
    · intro hc
      exact ⟨id,type,⟨rfl,rfl⟩,hc⟩
    · rintro ⟨id',type',⟨rfl,rfl⟩,hc⟩
      exact hc

theorem clearable_proper (hroot : absPath ctx.currentPath data ≠ "/".toList) :
    db.clearable ctx data = true ↔ CmdType.rmdir.proper db ctx data = true ∧
      ∃ p, db.nodeAt ctx.userId (absPath ctx.currentPath data) = some p ∧
        decide (p.type ≠ 0) = true := by
  rw [clearable_node,lookup_node hroot]
  simp only [CmdType.proper,Bool.and_eq_true,decide_eq_true_eq]
  cases hp : db.nodeAt ctx.userId (absPath ctx.currentPath data) with
  | none => simp
  | some p =>
    simp only [Option.map_some,Option.some.injEq,Prod.mk.injEq,Option.all_some,
      Bool.not_eq_true']
    constructor
    · rintro ⟨ha,id,type,⟨rfl,rfl⟩,ht,hempty⟩
      exact ⟨⟨⟨ha,hroot⟩,hempty⟩,p,rfl,ht⟩
    · rintro ⟨⟨⟨ha,-⟩,hempty⟩,q,rfl,ht⟩
      exact ⟨ha,_,_,⟨rfl,rfl⟩,ht,hempty⟩

theorem rmdir_rows {id type : ℕ} (hc : db.clearable ctx data = true)
    (hl : db.lookup ctx.userId (absPath ctx.currentPath data) = some (id,type)) :
    db.rmdir ctx data = db.dropPath ctx.userId id := by
  obtain ⟨ha,id',type',hl',ht,hempty⟩ := clearable_node.mp hc
  obtain ⟨rfl,rfl⟩ := Prod.mk.inj (Option.some.inj (hl.symm.trans hl'))
  rw [Db.rmdir,if_neg ha,hl]
  dsimp only
  rw [if_neg ht,if_neg (by rw [hempty]; decide)]

theorem rmdir_kept (hc : db.clearable ctx data = false) : db.rmdir ctx data = db := by
  unfold Db.rmdir
  split
  · rfl
  rename_i ha
  split
  · rfl
  rename_i id type hl
  split
  · rfl
  rename_i ht
  split
  · rfl
  rename_i hempty
  have hclear := clearable_node.mpr ⟨ha,id,type,hl,ht,Bool.eq_false_iff.mpr hempty⟩
  rw [hc] at hclear
  cases hclear

theorem tried_rmdir (h : db.Consistent) : Tried (CmdType.rmdir.proper db ctx data)
    (.take (ctx.userId,absPath ctx.currentPath data) true) db (db.rmdir ctx data)
      (db.clearable ctx data && decide (absPath ctx.currentPath data ≠ "/".toList)) := by
  refine tried_of ?_ (fun hr => ?_) fun hr => ?_
  · rw [room_take h,Bool.and_eq_true,decide_eq_true_eq]
    constructor
    · rintro ⟨hc,hroot⟩
      exact (clearable_proper hroot).mp hc
    · intro hp
      have hroot : absPath ctx.currentPath data ≠ "/".toList := by
        have hproper := hp.1
        simp only [CmdType.proper,Bool.and_eq_true,decide_eq_true_eq] at hproper
        exact hproper.1.2
      exact ⟨(clearable_proper hroot).mpr hp,hroot⟩
  · rw [Bool.and_eq_true,decide_eq_true_eq] at hr
    obtain ⟨hc,hroot⟩ := hr
    obtain ⟨-,p,hp,ht⟩ := (clearable_proper hroot).mp hc
    have hl : db.lookup ctx.userId (absPath ctx.currentPath data) = some (p.id,p.type) := by
      rw [lookup_node hroot,hp]
      rfl
    obtain ⟨hmem,hu,hpath⟩ := nodeAt_some hp
    have h' := consistent_rmdir h ctx data
    rw [rmdir_rows hc hl,← hu] at h' ⊢
    rw [← hpath]
    exact enact_dropDirectory h hmem (by simpa using ht) h'
  · rw [Bool.and_eq_false_iff] at hr
    cases hc : db.clearable ctx data with
    | false => rw [rmdir_kept hc]
    | true =>
      have hroot : absPath ctx.currentPath data = "/".toList := by
        rcases hr with hr | hr
        · rw [hc] at hr
          cases hr
        · by_contra hne
          exact absurd hr (by rw [decide_eq_true hne]; decide)
      have hl : db.lookup ctx.userId (absPath ctx.currentPath data) = some (0,1) := by
        rw [Db.lookup,if_pos hroot]
      rw [rmdir_rows hc hl,dropPath_absent fun p hp => Nat.ne_of_gt (h.keyed.pathIds.positive p hp)]

theorem receivable_proper (ctx : ClientContext) (arg : Text) : db.receivable ctx arg = true ↔
    ((buildFullVirtualPath fullPathLen ctx arg).isSome &&
      isValidVfsName (baseName (absPath ctx.currentPath arg)) &&
        decide (absPath ctx.currentPath arg ≠ "/".toList)) = true ∧
      db.nodeAt ctx.userId (absPath ctx.currentPath arg) = none := by
  unfold Db.receivable
  simp only [Bool.and_eq_true,decide_eq_true_eq]
  rw [vacant_iff,lookup_eq_none]
  have hne : (buildFullVirtualPath fullPathLen ctx arg).isSome = true → arg ≠ [] := by
    rintro hpath rfl
    obtain ⟨fullPath,hpath⟩ := Option.isSome_iff_exists.mp hpath
    obtain ⟨-,hcheck,-,-⟩ := transferFullPath_eq hpath
    exact absurd hcheck (by decide)
  tauto

theorem uploadable_some {userId : ℤ} {fullPath arg : Text}
    (h : db.uploadable userId fullPath = some (ctx,arg)) :
    db.transferContext userId fullPath = some (ctx,arg) ∧ db.receivable ctx arg = true := by
  obtain ⟨hctx,hg⟩ := Option.filter_eq_some_iff.mp h
  exact ⟨hctx,hg⟩

theorem tried_upload (h : db.Consistent) {userId : ℤ} {fullPath : Text} {n : Place} {bs : List ℕ}
    {size : ℤ} (hb : bs.length = 32 ∧ ∀ b ∈ bs, b < 256) (hn : uploadPlace userId fullPath = some n)
    (hmade : ∀ ctx arg, db.uploadable userId fullPath = some (ctx,arg) →
      db'.label = (db.upload ctx arg bs size).label)
    (hkept : db.uploadable userId fullPath = none → db'.label = db.label) :
    Tried (properUpload db userId fullPath) (.put n (some (Hex.hexLower bs))) db db'
      (db.uploadable userId fullPath).isSome := by
  refine tried_of ?_ (fun hg => ?_) fun hg => ?_
  · rw [room_put h,properUpload,Db.uploadable]
    rcases hctx : db.transferContext userId fullPath with _ | ⟨ctx,arg⟩
    · simp
    · obtain rfl := Option.some.inj (hn.symm.trans (transferContext_place hctx))
      rw [Option.any_some,← receivable_proper]
      cases hg : db.receivable ctx arg <;> simp [Option.filter,hg]
  · obtain ⟨⟨ctx,arg⟩,hup⟩ := Option.isSome_iff_exists.mp hg
    obtain ⟨hctx,hrec⟩ := uploadable_some hup
    obtain rfl := Option.some.inj (hn.symm.trans (transferContext_place hctx))
    rw [hmade ctx arg hup]
    exact enact_link h _ _ size hb ((receivable_proper ctx arg).mp hrec).2
  · rw [Option.isSome_eq_false_iff,Option.isNone_iff_eq_none] at hg
    exact hkept hg

end Tables

def Round.met {C : Type} (w : World Unit) (e : Round C) : World Unit :=
  match e.request with
  | .upload _ _ peer => w.meet () peer
  | _ => w

def Round.success {C : Type} (e : Round C) : Packet :=
  match e.request with
  | .command _ cmdType _ => cmdType.success
  | _ => CmdType.puts.success

/-- What the client was told, of nothing but success exactly if `granted`. -/
def Round.Answer {C : Type} (s s' : Site Unit) (e : Round C) (granted : Bool) : Prop :=
  ∃ l, s'.world.told () = (e.met s.world).told () ++ l ∧
    ((∀ p ∈ l, p = e.success) ↔ granted = true)

section Requests

variable {lib : Library} {check : Op → World Unit → Choice → Bool} {content : Text → Content}
  {s s' : Site Unit} {e : Round Choice} {d : Change}

theorem faultless_run {α : Type} {p : Server α} {w w' : World Unit} {cs : List Choice} {a : α}
    {Q : α → World Unit → Prop} (h : (checkedServer lib check).run () p w cs = some (a,w'))
    (hf : .fault ∉ cs) (hp : Solo lib Faultless () p Q w) : Q a w' := by
  have hrun := Machine.exec_listed (Machine.restrict_exec (Machine.run_exec h))
  refine Machine.exec_wlp (Machine.exec_mono ?_ hrun) hp
  rintro o v c ⟨-,hc⟩ rfl
  exact hf hc

theorem answer_told {granted : Bool} {p : Packet} {w : World Unit} (hmet : e.met s.world = w)
    (ht : s'.world.told () = w.told () ++ [p]) (hp : p = e.success ↔ granted = true) :
    e.Answer s s' granted :=
  ⟨[p],by rw [hmet,ht],by simpa using hp⟩

theorem command_tried (hc : s.world.db.Consistent) (hf : .fault ∉ e.outcomes)
    (hroom : (storePath s.world.node.storeDir emptyFileSha256).length < maxPathLen) {k : ℕ}
    {cmdType : CmdType} {data : Text} (he : e.request = .command k cmdType data)
    (hin : (s.sessions k).userId ≠ -1) (hd : cmdType.change (s.sessions k) data = some d)
    (hx : s.step (checkedServer lib check) () e = some s') :
    ∃ granted, Tried (cmdType.proper s.world.db (s.sessions k) data) d s.world.db s'.world.db
      granted ∧ (d.name.2 ≠ "/".toList → e.Answer s s' granted) := by
  obtain ⟨ctx',w,hrun,rfl⟩ := step_command he hx
  have hmet : e.met s.world = s.world := by rw [Round.met,he]
  have hsuccess : e.success = cmdType.success := by rw [Round.success,he]
  have hserved : ∀ {p : Server Unit} {db : Db} {granted : Bool},
      dispatchControlCommand (s.sessions k) cmdType data =
        (p >>= fun _ => pure (s.sessions k)) →
      Solo lib Faultless () p (fun _ w' => w'.db = db ∧
        AnsweredBy () s.world cmdType.success granted w') s.world →
      w.db = db ∧ AnsweredBy () s.world cmdType.success granted w := by
    intro p db granted hp hsolo
    rw [hp] at hrun
    exact faultless_run (Q := fun _ w' => w'.db = db ∧
      AnsweredBy () s.world cmdType.success granted w') hrun hf (solo_bind hsolo)
  have hanswer : ∀ {granted : Bool}, AnsweredBy () s.world cmdType.success granted w →
      e.Answer s ⟨w,update s.sessions k ctx'⟩ granted := by
    rintro granted ⟨p,ht,hp⟩
    exact answer_told hmet ht (by rw [hsuccess]; exact hp)
  have hlogged : ∀ c : CmdType, ¬((s.sessions k).userId = -1 ∧ c ≠ .login ∧ c ≠ .register) :=
    fun _ h => hin h.1
  cases cmdType <;> simp only [CmdType.change,Option.some.injEq,reduceCtorEq] at hd
  case touch =>
    subst hd
    obtain ⟨hdb,ha⟩ := hserved (by unfold dispatchControlCommand; rw [if_neg (hlogged _)])
      (solo_touch_answer (s.sessions k) data hroom)
    dsimp only
    rw [hdb]
    exact ⟨_,tried_touch hc,fun _ => hanswer ha⟩
  case rm =>
    subst hd
    have hleads : Solo lib Faultless () (handleRm (s.sessions k) data)
        (fun _ w' => w'.db = s.world.db.rm (s.sessions k) data) s.world :=
      Machine.wlp_mono _ (fun _ _ h => h.1) (solo_rm faultless_statements _ _)
    obtain ⟨hdb,ha⟩ := hserved (by unfold dispatchControlCommand; rw [if_neg (hlogged _)])
      (Machine.wlp_and _ hleads (solo_rm_answer hc (s.sessions k) data))
    dsimp only
    rw [hdb]
    exact ⟨_,tried_rm hc,fun _ => hanswer ha⟩
  case mkdir =>
    subst hd
    have hleads : Solo lib Faultless () (handleMkdir (s.sessions k) data)
        (fun _ w' => w'.db = s.world.db.mkdir (s.sessions k) data) s.world :=
      Machine.wlp_mono _ (fun _ _ h => h.1) (solo_mkdir faultless_statements _ _)
    obtain ⟨hdb,ha⟩ := hserved (by unfold dispatchControlCommand; rw [if_neg (hlogged _)])
      (Machine.wlp_and _ hleads (solo_mkdir_answer (s.sessions k) data))
    dsimp only
    rw [hdb]
    exact ⟨_,tried_mkdir hc,fun _ => hanswer ha⟩
  case rmdir =>
    subst hd
    have hleads : Solo lib Faultless () (handleRmdir (s.sessions k) data)
        (fun _ w' => w'.db = s.world.db.rmdir (s.sessions k) data) s.world :=
      Machine.wlp_mono _ (fun _ _ h => h.1) (solo_rmdir faultless_statements _ _)
    obtain ⟨hdb,ha⟩ := hserved (by unfold dispatchControlCommand; rw [if_neg (hlogged _)])
      (Machine.wlp_and _ hleads (solo_rmdir_answer (s.sessions k) data))
    dsimp only
    rw [hdb]
    refine ⟨_,tried_rmdir hc,fun hroot => ?_⟩
    change absPath (s.sessions k).currentPath data ≠ "/".toList at hroot
    rw [decide_eq_true hroot,Bool.and_true]
    exact hanswer ha

theorem upload_tried (hc : s.world.db.Consistent) (hf : .fault ∉ e.outcomes)
    (hreg : registrable s.world.node.address = true) {userId : ℤ} {fullPath : Text}
    {peer : Connection}
    (hroom : (storePath s.world.node.storeDir peer.hello.hash).length < maxPathLen)
    (he : e.request = .upload userId fullPath peer) (hpeer : Honest content peer)
    {n : Place} (hn : uploadPlace userId fullPath = some n)
    (hx : s.step (checkedServer lib check) () e = some s') :
    ∃ granted, Tried (properUpload s.world.db userId fullPath)
      (.put n (some peer.hello.hash)) s.world.db s'.world.db granted ∧ e.Answer s s' granted := by
  obtain ⟨bs,hb,-,hl⟩ := Hex.unhex_hash hpeer.hash
  obtain ⟨w,hrun,rfl⟩ := step_upload he hx
  have hmet : e.met s.world = s.world.meet () peer := by rw [Round.met,he]
  have hsuccess : e.success = CmdType.puts.success := by rw [Round.success,he]
  have hconn : ((s.world.meet () peer).node.conn ()).hello = peer.hello := by
    simp [World.meet,Node.setConn,Node.setDesc]
  have hsize : 0 ≤ peer.hello.fileSize := by
    rw [hpeer.size]
    exact Int.natCast_nonneg _
  obtain ⟨hdeclined,haccepted⟩ := faultless_run hrun hf (solo_upload_answer
    (w := s.world.meet () peer) hc.keyed (hconn ▸ hpeer.hash) (hconn ▸ hb) hreg (hconn ▸ hsize)
    (hconn ▸ hroom) userId fullPath)
  rw [hconn] at haccepted
  refine ⟨(s.world.db.uploadable userId fullPath).isSome,?_,?_⟩
  · rw [← hl]
    have hmade : ∀ ctx arg, s.world.db.uploadable userId fullPath = some (ctx,arg) →
        w.db.label = (s.world.db.upload ctx arg bs peer.hello.fileSize).label := by
      intro ctx arg hup
      have ha := haccepted ctx arg hup
      funext m
      unfold Db.label Db.nodeAt Db.fileWithId
      rw [ha.paths,ha.files]
      rfl
    exact tried_upload hc (unhex_cell hpeer.hash hb) hn hmade fun hnone =>
      congrArg Db.label (hdeclined hnone).db
  · cases hup : s.world.db.uploadable userId fullPath with
    | none =>
      obtain ⟨p,hp,ht⟩ := (hdeclined hup).told
      refine answer_told hmet ht ?_
      rw [hsuccess]
      exact iff_of_false hp (by simp)
    | some a =>
      rcases (haccepted a.1 a.2 hup).told with ht | ht
      · exact ⟨[],by rw [hmet,ht,List.append_nil],iff_of_true (by simp) rfl⟩
      · exact answer_told hmet ht (iff_of_true hsuccess.symm rfl)

end Requests

section Runs

variable {lib : Library} {check : Op → World Unit → Choice → Bool} {content : Text → Content}
  {s s' t t' : Site Unit} {e : Round Choice}

def Installed (dir : Text) (address : Text × Text) (w : World Unit) : Prop :=
  w.node.storeDir = dir ∧ w.node.address = address

theorem installed_run {α : Type} {p : Server α} {w w' : World Unit} {cs : List Choice} {a : α}
    {dir : Text} {address : Text × Text} (hw : Installed dir address w)
    (h : (checkedServer lib check).run () p w cs = some (a,w')) : Installed dir address w' := by
  refine Machine.exec_invariant ?_ hw (Machine.restrict_exec (Machine.run_exec h))
  rintro o v c r v' ⟨hd,ha⟩ hx
  exact ⟨(execute_announced hx).1.trans hd,(execute_address hx).trans ha⟩

theorem installed_step {dir : Text} {address : Text × Text} (hs : Installed dir address s.world)
    (hx : s.step (checkedServer lib check) () e = some s') : Installed dir address s'.world := by
  cases he : e.request with
  | connect k =>
    obtain rfl := step_connect he hx
    exact hs
  | command k cmdType data =>
    obtain ⟨ctx,w,hrun,rfl⟩ := step_command he hx
    exact installed_run hs hrun
  | upload userId fullPath peer =>
    obtain ⟨w,hrun,rfl⟩ := step_upload he hx
    have hmeet : Installed dir address (s.world.meet () peer) := hs
    exact installed_run hmeet hrun

/-- The entries a request without a fault leaves. -/
def Round.expected {C : Type} (content : Text → Content) (s : Site Unit) (e : Round C) :
    Place → Option Entry :=
  match e.deed content s.sessions with
  | none => s.world.drive
  | some d => if e.proper s then attempt Entry.isDir s.world.drive d else s.world.drive

theorem tried_expected {change : Change} {granted : Bool} (hw : Whole content s.world)
    (hw' : Whole content s'.world) (hd : e.change s.sessions = some change)
    (h : Tried (e.proper s) change s.world.db s'.world.db granted) :
    s'.world.drive = e.expected content s ∧ ∀ d, e.deed content s.sessions = some d →
      d.name = change.name ∧ (granted = true ↔
        e.proper s = true ∧ (enact Entry.isDir s.world.drive d).isSome = true) := by
  have hdeed : e.deed content s.sessions = some (change.map (Label.entry content)) := by
    rw [Round.deed,hd]
    rfl
  refine ⟨?_,fun d he => ?_⟩
  · unfold Round.expected
    rw [hdeed,drive_label hw',drive_label hw,h.label]
    dsimp only
    split
    · exact (attempt_map (entry_isDir content) _ _).symm
    · rfl
  · obtain rfl := Option.some.inj (hdeed.symm.trans he)
    refine ⟨by cases change <;> rfl,?_⟩
    rw [h.granted,drive_label hw]
    refine and_congr_right fun _ => ?_
    cases hp : enact Option.isNone s.world.db.label change with
    | none =>
      rw [enact_map_none (entry_isDir content) hp]
      rfl
    | some f =>
      rw [enact_map (entry_isDir content) hp]
      rfl

theorem served_step (hok : StatementsHold (Checked check)) (hfiles : FilesHold () (Checked check))
    (hempty : content emptyFileSha256 = []) (ht : Sane content t.world) (he : e.Honest content)
    (hf : .fault ∉ e.outcomes) (hreg : registrable t.world.node.address = true)
    (hroom : ∀ h : Text, h.length = 64 → (storePath t.world.node.storeDir h).length < maxPathLen)
    (hx : t.step (checkedServer lib check) () e = some t') :
    t'.world.drive = e.expected content t ∧ ∀ d, e.deed content t.sessions = some d →
      d.name.2 ≠ "/".toList → ∃ granted, e.Answer t t' granted ∧ (granted = true ↔
        e.proper t = true ∧ (enact Entry.isDir t.world.drive d).isSome = true) := by
  have ht' := sane_step hok hfiles hempty ht he hx
  cases hd : e.change t.sessions with
  | none =>
    have hnone : e.deed content t.sessions = none := by rw [Round.deed,hd]; rfl
    have hc := step_changed hok ht.consistent (honest_wellFormed he) hx
    rw [hd] at hc
    refine ⟨?_,fun d he => absurd (hnone.symm.trans he) (by simp)⟩
    rcases changed_drive ht.whole ht'.whole hc with hsame | ⟨d,he,-⟩
    · rw [hsame,Round.expected,hnone]
    · cases he
  | some change =>
    have htried : ∃ granted, Tried (e.proper t) change t.world.db t'.world.db granted ∧
        (change.name.2 ≠ "/".toList → e.Answer t t' granted) := by
      have hd' := hd
      unfold Round.change at hd'
      unfold Round.proper
      cases hreq : e.request with
      | connect k =>
        rw [hreq] at hd'
        cases hd'
      | command k cmdType data =>
        rw [hreq] at hd'
        dsimp only at hd' ⊢
        by_cases hin : (t.sessions k).userId = -1
        · rw [if_pos hin] at hd'
          cases hd'
        · rw [if_neg hin] at hd'
          exact command_tried ht.consistent hf (hroom _ (by decide)) hreq hin hd' hx
      | upload userId fullPath peer =>
        rw [hreq] at hd'
        dsimp only at hd' ⊢
        obtain ⟨n,hn,rfl⟩ := Option.map_eq_some_iff.mp hd'
        have hpeer : Honest content peer := by
          unfold Round.Honest at he
          rw [hreq] at he
          exact he.1
        obtain ⟨granted,htry,ha⟩ := upload_tried ht.consistent hf hreg
          (hroom _ hpeer.hash.1) hreq hpeer hn hx
        exact ⟨granted,htry,fun _ => ha⟩
    obtain ⟨granted,htry,ha⟩ := htried
    obtain ⟨hdrive,hgranted⟩ := tried_expected ht.whole ht'.whole hd htry
    refine ⟨hdrive,fun d hdeed hroot => ?_⟩
    obtain ⟨hname,hiff⟩ := hgranted d hdeed
    exact ⟨granted,ha (hname ▸ hroot),hiff⟩

end Runs

end WindCloud
