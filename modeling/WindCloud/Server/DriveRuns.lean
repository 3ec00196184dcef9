import WindCloud.Server.Drive

/-!
# Requests as changes of the drive

A request that changes the tables makes the one change it names. Over whole runs
of honest uploads this is so for the entries with their contents, and an entry is
there until its own user removes it.
-/

set_option autoImplicit false

namespace WindCloud
open CString Effect Function Runs Shelf

/-- The place where an upload enters its file. -/
def uploadPlace (userId : ℤ) (fullPath : Text) : Option Place :=
  (splitFullPath fullPath 256 fileNameLen).map fun e => (userId,absPath (e.1.take 255) e.2)

/-- The change a request makes when it makes one. -/
def Round.change {C : Type} (sessions : ℕ → ClientContext) (e : Round C) : Option Change :=
  match e.request with
  | .connect _ => none
  | .command k cmdType data =>
    if (sessions k).userId = -1 then none else cmdType.change (sessions k) data
  | .upload userId fullPath peer =>
    (uploadPlace userId fullPath).map fun n => .put n (some peer.hello.hash)

section Changes

variable {db db' : Db} {ctx : ClientContext} {data : Text} {change : Option Change}

theorem changed_kept (change : Option Change) (db : Db) : Changed change db db := .inl rfl

theorem filesFrom_same (h : db'.files = db.files) : FilesFrom db db' :=
  fun x hx => .inl ⟨x,h ▸ hx,rfl,rfl⟩

theorem filesFrom_trans {db'' : Db} (hn : db'.nextFile = db.nextFile) (h : FilesFrom db db')
    (h' : FilesFrom db' db'') : FilesFrom db db'' := by
  intro x hx
  rcases h' x hx with ⟨y,hy,hid,hsum⟩ | hnew
  · rcases h y hy with ⟨z,hz,hid',hsum'⟩ | hnew
    · exact .inl ⟨z,hz,hid'.trans hid,hsum'.trans hsum⟩
    · exact .inr (hid ▸ hnew)
  · exact .inr (hn ▸ hnew)

theorem filesFrom_release (fileId : ℕ) : FilesFrom db (db.release fileId) := by
  have hsub : ∀ x ∈ (db.subRef fileId).files, ∃ y ∈ db.files,
      y.id = x.id ∧ y.sha256sum = x.sha256sum := by
    intro x hx
    obtain ⟨y,hy,rfl⟩ := List.mem_map.mp hx
    refine ⟨y,hy,?_⟩
    split <;> exact ⟨rfl,rfl⟩
  intro x hx
  unfold Db.release at hx
  split at hx
  · exact .inl ⟨x,hx,rfl,rfl⟩
  · split at hx
    · exact .inl (hsub x hx)
    · split at hx <;> exact .inl (hsub x (List.mem_of_mem_filter hx))

theorem filesFrom_link {userId : ℤ} {path : Text} {parentId : ℕ} {fileName : Text} {bs : List ℕ}
    {size : ℤ} : FilesFrom db (db.link userId path parentId fileName bs size) := by
  intro x hx
  unfold Db.link at hx
  split at hx
  · obtain ⟨y,hy,rfl⟩ := List.mem_map.mp hx
    refine .inl ⟨y,hy,?_⟩
    split <;> exact ⟨rfl,rfl⟩
  · rw [addPath_files,addFile_files] at hx
    rcases List.mem_append.mp hx with hx | hx
    · exact .inl ⟨x,hx,rfl,rfl⟩
    · obtain rfl := List.mem_singleton.mp hx
      exact .inr le_rfl

@[simp] theorem release_paths (fileId : ℕ) : (db.release fileId).paths = db.paths := by
  unfold Db.release
  split
  · rfl
  · split
    · rfl
    · split <;> rfl

theorem link_node {userId : ℤ} {path : Text} {parentId : ℕ} {fileName : Text} {bs : List ℕ}
    {size : ℤ} (hn : db.nodeAt userId path = none) :
    (∃ p r, (db.link userId path parentId fileName bs size).nodeAt userId path = some p ∧
      p.type = 0 ∧ r ∈ (db.link userId path parentId fileName bs size).files ∧
      p.fileId = some r.id ∧ r.sha256sum = bs) ∧
    ∀ n : Place, n ≠ (userId,path) →
      (db.link userId path parentId fileName bs size).nodeAt n.1 n.2 = db.nodeAt n.1 n.2 := by
  have hother : ∀ n : Place, n ≠ (userId,path) → ¬(n.1 = userId ∧ n.2 = path) :=
    fun n hne he => hne (Prod.ext he.1 he.2)
  unfold Db.link
  cases hf : db.fileOf bs with
  | some r =>
    obtain ⟨hr,hsum⟩ := fileOf_some hf
    have hnode : ∀ u p, ((db.addPath userId path (some r.id) parentId fileName 0).addRef r.id).nodeAt
        u p = (db.addPath userId path (some r.id) parentId fileName 0).nodeAt u p := fun _ _ => rfl
    refine ⟨⟨⟨db.nextPath,userId,path,some r.id,parentId,fileName,0⟩,{ r with count := r.count+1 },
      ?_,rfl,?_,rfl,hsum⟩,fun n hne => ?_⟩
    · exact (hnode _ _).trans ((nodeAt_addPath hn _ _ _ _ _ _).trans (if_pos ⟨rfl,rfl⟩))
    · refine List.mem_map.mpr ⟨r,hr,?_⟩
      rw [if_pos rfl]
    · exact (hnode _ _).trans ((nodeAt_addPath hn _ _ _ _ _ _).trans (if_neg (hother n hne)))
  | none =>
    have hn' : (db.addFile bs size).nodeAt userId path = none := hn
    refine ⟨⟨⟨db.nextPath,userId,path,some db.nextFile,parentId,fileName,0⟩,
      ⟨db.nextFile,bs,size,1⟩,?_,rfl,?_,rfl,rfl⟩,fun n hne => ?_⟩
    · exact (nodeAt_addPath hn' _ _ _ _ _ _).trans (if_pos ⟨rfl,rfl⟩)
    · exact List.mem_append_right _ (List.mem_singleton.mpr rfl)
    · exact (nodeAt_addPath hn' _ _ _ _ _ _).trans (if_neg (hother n hne))

theorem enact_link (h : db.Consistent) {userId : ℤ} {path : Text} (parentId : ℕ)
    (fileName : Text) {bs : List ℕ} (size : ℤ) (hb : bs.length = 32 ∧ ∀ b ∈ bs, b < 256)
    (hn : db.nodeAt userId path = none) :
    enact Option.isNone db.label (.put (userId,path) (some (Hex.hexLower bs))) =
      some (db.link userId path parentId fileName bs size).label := by
  have h' := consistent_link h parentId fileName size hn hb
  obtain ⟨⟨p,r,hp,ht,hr,hid,hsum⟩,hother⟩ :=
    @link_node db userId path parentId fileName bs size hn
  refine label_put h h' filesFrom_link (n := (userId,path)) hn ?_ hother
  rw [label_file h'.keyed hp ht hr hid,hsum]

theorem enact_mkdir (h : db.Consistent) (hv : db.vacant ctx data = true) :
    enact Option.isNone db.label (.put (ctx.userId,absPath ctx.currentPath data) none) =
      some (db.mkdir ctx data).label := by
  have h' := consistent_mkdir h ctx data
  unfold Db.mkdir at h' ⊢
  rw [if_pos hv] at h' ⊢
  obtain ⟨-,-,-,hn⟩ := vacant_true hv
  refine label_put h h' (filesFrom_same rfl) hn ?_ fun n hne => ?_
  · dsimp only [Db.label]
    rw [nodeAt_addPath hn,if_pos ⟨rfl,rfl⟩]
    rfl
  · rw [nodeAt_addPath hn,if_neg fun he => hne (Prod.ext he.1 he.2)]

theorem enact_touch (h : db.Consistent) (hv : db.vacant ctx data = true) :
    enact Option.isNone db.label
        (.put (ctx.userId,absPath ctx.currentPath data) (some emptyFileSha256)) =
      some (db.touch ctx data emptyFileBytes).label := by
  obtain ⟨-,-,-,hn⟩ := vacant_true hv
  unfold Db.touch
  rw [if_pos hv,← emptyFile_lower]
  exact enact_link h _ _ 0 emptyFileBytes_cell hn

theorem enact_rm (h : db.Consistent) {id fileId : ℕ}
    (hr : db.removable ctx data = some (id,fileId)) :
    enact Option.isNone db.label (.take (ctx.userId,absPath ctx.currentPath data) false) =
      some (db.rm ctx data).label := by
  have h' := consistent_rm h ctx data
  unfold Db.rm at h' ⊢
  rw [hr] at h' ⊢
  obtain ⟨p,hp,hu,hpath,rfl,ht,hf⟩ := removable_row hr
  obtain ⟨r,hfile,he⟩ := h.counted.linked p hp ht
  have hnode : ∀ u q, ((db.dropPath ctx.userId p.id).release fileId).nodeAt u q =
      if u = p.userId ∧ q = p.path then none else db.nodeAt u q := by
    intro u q
    rw [← nodeAt_dropPath h.keyed hp,hu]
    unfold Db.nodeAt
    rw [release_paths]
  have hold : db.label (p.userId,p.path) = some (some (Hex.hexLower r.sha256sum)) :=
    label_file h.keyed (nodeAt_mem h.keyed hp) ht hfile he
  rw [← hu,← hpath] at *
  refine label_take h h' ?_ (by rw [hold]; rfl) ?_ fun n hne => ?_
  · exact filesFrom_trans rfl (filesFrom_same rfl) (filesFrom_release _)
  · rw [hnode,if_pos ⟨rfl,rfl⟩]
  · rw [hnode,if_neg fun he => hne (Prod.ext he.1 he.2)]

theorem enact_dropDirectory (h : db.Consistent) {r : PathRow} (hr : r ∈ db.paths)
    (ht : r.type ≠ 0) (h' : (db.dropPath r.userId r.id).Consistent) :
    enact Option.isNone db.label (.take (r.userId,r.path) true) =
      some (db.dropPath r.userId r.id).label := by
  have hold : db.label (r.userId,r.path) = some none := by
    dsimp only [Db.label]
    rw [nodeAt_mem h.keyed hr,Option.bind_some,if_neg ht]
  refine label_take h h' (filesFrom_same rfl) (by rw [hold]; rfl) ?_ fun n hne => ?_
  · rw [nodeAt_dropPath h.keyed hr,if_pos ⟨rfl,rfl⟩]
  · rw [nodeAt_dropPath h.keyed hr,if_neg fun he => hne (Prod.ext he.1 he.2)]

theorem changed_mkdir (h : db.Consistent) :
    Changed (CmdType.mkdir.change ctx data) db (db.mkdir ctx data) := by
  cases hv : db.vacant ctx data with
  | true => exact .inr ⟨_,rfl,enact_mkdir h hv⟩
  | false =>
    rw [Db.mkdir,hv]
    exact changed_kept _ _

theorem changed_touch (h : db.Consistent) :
    Changed (CmdType.touch.change ctx data) db (db.touch ctx data emptyFileBytes) := by
  cases hv : db.vacant ctx data with
  | true => exact .inr ⟨_,rfl,enact_touch h hv⟩
  | false =>
    rw [Db.touch,hv]
    exact changed_kept _ _

theorem changed_rm (h : db.Consistent) :
    Changed (CmdType.rm.change ctx data) db (db.rm ctx data) := by
  cases hr : db.removable ctx data with
  | some e => exact .inr ⟨_,rfl,enact_rm h hr⟩
  | none =>
    rw [Db.rm,hr]
    exact changed_kept _ _

theorem changed_rmdir (h : db.Consistent) :
    Changed (CmdType.rmdir.change ctx data) db (db.rmdir ctx data) := by
  have h' := consistent_rmdir h ctx data
  unfold Db.rmdir at h' ⊢
  split
  · exact changed_kept _ _
  rename_i hne
  rw [if_neg hne] at h'
  split
  · exact changed_kept _ _
  rename_i id type hl
  rw [hl] at h'
  dsimp only at h'
  split
  · exact changed_kept _ _
  rename_i ht
  rw [if_neg ht] at h'
  split
  · exact changed_kept _ _
  rename_i hempty
  rw [if_neg hempty] at h'
  rcases lookup_some hl with ⟨-,rfl,-⟩ | ⟨r,hr,hu,hpath,rfl,rfl⟩
  · refine .inl ?_
    rw [dropPath_absent fun p hp => Nat.ne_of_gt (h.keyed.pathIds.positive p hp)]
  · refine .inr ⟨_,rfl,?_⟩
    rw [← hu,← hpath] at *
    exact enact_dropDirectory h hr ht h'

theorem changed_commanded (h : db.Consistent) {cmdType : CmdType}
    (hc : Commanded db ctx data cmdType db') :
    db'.label = db.label ∨ ctx.userId ≠ -1 ∧ Changed (cmdType.change ctx data) db db' := by
  cases hc with
  | kept => exact .inl rfl
  | registered => exact .inl rfl
  | touched inside => exact .inr ⟨inside,changed_touch h⟩
  | removed inside => exact .inr ⟨inside,changed_rm h⟩
  | made inside => exact .inr ⟨inside,changed_mkdir h⟩
  | dropped inside => exact .inr ⟨inside,changed_rmdir h⟩

theorem transferContext_place {userId : ℤ} {fullPath arg : Text}
    (h : db.transferContext userId fullPath = some (ctx,arg)) :
    uploadPlace userId fullPath = some (ctx.userId,absPath ctx.currentPath arg) := by
  unfold Db.transferContext at h
  unfold uploadPlace
  split at h
  · cases h
  rename_i parent name hsplit
  rw [hsplit]
  split at h
  · obtain ⟨rfl,rfl⟩ := Prod.mk.inj (Option.some.inj h)
    rfl
  split at h
  · cases h
  split at h
  · cases h
  · obtain ⟨rfl,rfl⟩ := Prod.mk.inj (Option.some.inj h)
    rfl

theorem changed_uploaded (h : db.Consistent) {arg : Text} {bs : List ℕ} {size : ℤ}
    (hb : bs.length = 32 ∧ ∀ b ∈ bs, b < 256) (hu : Uploaded db ctx arg bs size db') :
    Changed (some (.put (ctx.userId,absPath ctx.currentPath arg) (some (Hex.hexLower bs)))) db db' := by
  have hlink : Uploadable db ctx arg → enact Option.isNone db.label
      (.put (ctx.userId,absPath ctx.currentPath arg) (some (Hex.hexLower bs))) =
        some (db.upload ctx arg bs size).label := by
    intro hnew
    obtain ⟨-,-,-,hn⟩ := vacant_true hnew.vacant
    exact enact_link h _ _ size hb hn
  cases hu with
  | kept => exact changed_kept _ _
  | linked new => exact .inr ⟨_,rfl,hlink new⟩
  | registered new fileId ip port =>
    refine .inr ⟨_,rfl,(hlink new).trans (congrArg some ?_)⟩
    funext n
    unfold Db.label Db.nodeAt Db.fileWithId
    rw [putSource_paths,putSource_files]

end Changes

section Requests

variable {lib : Library} {check : Op → World Unit → Choice → Bool} {s s' : Site Unit}
  {e : Round Choice}

theorem step_changed (hok : StatementsHold (Checked check)) (h : s.world.db.Consistent)
    (hw : e.wellFormed) (hx : s.step (checkedServer lib check) () e = some s') :
    Changed (e.change s.sessions) s.world.db s'.world.db := by
  unfold Round.change
  cases he : e.request with
  | connect k =>
    obtain rfl := step_connect he hx
    exact changed_kept _ _
  | command k cmdType data =>
    obtain ⟨ctx,-,hd⟩ := command_dispatched hok he hx
    rcases changed_commanded h hd.tables with hsame | ⟨hin,hc⟩
    · exact .inl hsame
    · dsimp only
      rw [if_neg hin]
      exact hc
  | upload userId fullPath peer =>
    obtain ⟨-,-,hdb⟩ := upload_uploaded hok he hw hx
    rcases hdb with hdb | ⟨bs,ctx,arg,hb,hctx,hup⟩
    · rw [hdb]
      exact changed_kept _ _
    · have hh : Hex.IsHash peer.hello.hash := by
        unfold Round.wellFormed at hw
        rw [he] at hw
        exact hw
      obtain ⟨bs',hb',-,hl⟩ := Hex.unhex_hash hh
      obtain rfl := Option.some.inj (hb.symm.trans hb')
      have hc := changed_uploaded h (unhex_cell hh hb) hup
      rw [hl] at hc
      dsimp only
      rw [transferContext_place hctx]
      exact hc

end Requests

/-- What a request does to the drive when it does anything. -/
def Round.deed {C : Type} (content : Text → Content) (sessions : ℕ → ClientContext) (e : Round C) :
    Option (Deed Place Entry Bool) :=
  (e.change sessions).map (Deed.map (Label.entry content))

/-- A session of the user of this place asks for its removal. No other text names the
place in a statement that is meant as it is read. -/
def Round.Removes {C : Type} (n : Place) (sessions : ℕ → ClientContext) (e : Round C) : Prop :=
  ∃ k cmdType data, e.request = .command k cmdType data ∧ (cmdType = .rm ∨ cmdType = .rmdir) ∧
    (sessions k).userId = n.1 ∧ absPath (sessions k).currentPath data = n.2

section Runs

variable {lib : Library} {check : Op → World Unit → Choice → Bool} {content : Text → Content}

/-- Over sane states requests change the drive as they say. -/
theorem drive_tends (hok : StatementsHold (Checked check)) (hfiles : FilesHold () (Checked check))
    (hempty : content emptyFileSha256 = []) :
    Tends Entry.isDir (Site.step (checkedServer lib check) ()) (fun _ e => e.Honest content)
      (fun s => Sane content s.world) (fun s => s.world.drive)
      fun s e => e.deed content s.sessions where
  invariant _ _ _ hs he hx := sane_step hok hfiles hempty hs he hx
  deeds _ _ _ hs he hx := by
    have hs' := sane_step hok hfiles hempty hs he hx
    exact changed_drive hs.whole hs'.whole
      (step_changed hok hs.consistent (honest_wellFormed he) hx)

theorem deed_take {sessions : ℕ → ClientContext} {e : Round Choice} {n : Place} {k : Bool}
    (h : e.deed content sessions = some (.take n k)) : e.Removes n sessions := by
  obtain ⟨d,hd,he⟩ := Option.map_eq_some_iff.mp h
  obtain ⟨k',rfl⟩ : ∃ k', d = .take n k' := by
    cases d with
    | put m l => cases he
    | take m k' =>
      obtain ⟨rfl,rfl⟩ : m = n ∧ k' = k := by simpa [Deed.map] using he
      exact ⟨_,rfl⟩
  unfold Round.change at hd
  split at hd
  · cases hd
  · rename_i j cmdType data hreq
    split at hd
    · cases hd
    cases cmdType <;> simp only [CmdType.change,Option.some.injEq,reduceCtorEq] at hd
    · obtain ⟨rfl,-⟩ := Deed.take.inj hd
      exact ⟨j,_,data,hreq,.inl rfl,rfl,rfl⟩
    · obtain ⟨rfl,-⟩ := Deed.take.inj hd
      exact ⟨j,_,data,hreq,.inr rfl,rfl,rfl⟩
  · obtain ⟨m,-,hm⟩ := Option.map_eq_some_iff.mp hd
    cases hm

end Runs

/-- The run of honest requests none of which asks for the removal of this place. -/
abbrev KeepingRun (m : Machine Op Op.Res Unit (World Unit) Choice) (content : Text → Content)
    (n : Place) (t u : Site Unit) : Prop :=
  Runs.Reached (Site.step m ()) (fun v e => e.Honest content ∧ ¬e.Removes n v.sessions) t u

theorem keeping_stays {lib : Library} {check : Op → World Unit → Choice → Bool}
    {content : Text → Content} {t u : Site Unit} (hok : StatementsHold (Checked check))
    (hfiles : FilesHold () (Checked check)) (hempty : content emptyFileSha256 = [])
    (ht : Sane content t.world) {n : Place} {a : Entry} (ha : t.world.drive n = some a)
    (rest : KeepingRun (checkedServer lib check) content n t u) : u.world.drive n = some a := by
  have htends : Tends Entry.isDir (Site.step (checkedServer lib check) ())
      (fun _ e => e.Honest content) (fun s => Sane content s.world) (fun s => s.world.drive)
      fun s e => e.deed content s.sessions := drive_tends hok hfiles hempty
  refine tends_stays htends ht ha (reached_mono ?_ rest)
  rintro v e ⟨he,hkeep⟩
  exact ⟨he,fun k hk => hkeep (deed_take hk)⟩

namespace ResumedUpload

def removal : Round Choice := ⟨.command 0 .rm "a".toList,List.replicate 11 .ok⟩

/-- Its user uploads it once more, which is refused, and another user asks for a file
with its name and makes a directory. -/
def later : List (Round Choice) :=
  [⟨.upload 1 "/a".toList SharedContent.peer,List.replicate 4 .ok⟩,
    ⟨.command 1 .touch "a".toList,List.replicate 7 .ok⟩,
    ⟨.command 1 .mkdir "c".toList,List.replicate 3 .ok⟩]

theorem later_keeps (v : Site Unit) (e : Round Choice) (he : e ∈ later) :
    e.Honest content ∧ ¬e.Removes (1,"/a".toList) v.sessions := by
  simp only [later,List.mem_cons,List.not_mem_nil,or_false] at he
  rcases he with rfl | rfl | rfl
  · refine ⟨⟨honest,rfl⟩,?_⟩
    rintro ⟨k,cmdType,data,hreq,-⟩
    cases hreq
  · refine ⟨trivial,?_⟩
    rintro ⟨k,cmdType,data,hreq,hcmd,-⟩
    obtain ⟨-,rfl,-⟩ := Request.command.inj hreq
    rcases hcmd with hcmd | hcmd <;> cases hcmd
  · refine ⟨trivial,?_⟩
    rintro ⟨k,cmdType,data,hreq,hcmd,-⟩
    obtain ⟨-,rfl,-⟩ := Request.command.inj hreq
    rcases hcmd with hcmd | hcmd <;> cases hcmd

theorem later_run {t u : Site Unit}
    (h : replay (Site.step (checkedServer TwoUploads.lib fragile) ()) (fun _ _ => true) later t =
      some u) : KeepingRun (checkedSqlServer (strictDatabase caseless) TwoUploads.lib fragile)
        content (1,"/a".toList) t u := by
  rw [KeepingRun,checkedSqlServer_eq (strict_documented _) fragile_meant]
  exact replay_permitted later_keeps h

end ResumedUpload

end WindCloud
