import WindCloud.Server.CountRuns
import WindCloud.Server.SqlServer
import WindCloud.Server.StoreUploads

/-!
# The store over whole runs

From empty tables and an empty store on, whatever requests are served one after
the other, the store file of every row is the content with its hash, and every
other store file is a beginning of its own.
-/

set_option autoImplicit false

namespace WindCloud
open CString Effect Function Runs

/-- The peer of an upload is honest and has been sent nothing. -/
def Round.Honest {C : Type} (content : Text → Content) (e : Round C) : Prop :=
  match e.request with
  | .upload _ _ peer => WindCloud.Honest content peer ∧ peer.sent = []
  | _ => True

/-- The counts are right and the store is whole. -/
structure Sane {ι : Type} (content : Text → Content) (w : World ι) : Prop where
  consistent : w.db.Consistent
  whole : Whole content w

section Rows

variable {db db' : Db} {ctx : ClientContext} {data : Text}

theorem release_files {fileId : ℕ} {x : FileRow} (hx : x ∈ (db.release fileId).files) :
    ∃ y ∈ db.files, y.sha256sum = x.sha256sum ∧ y.size = x.size := by
  have hsub : ∀ x ∈ (db.subRef fileId).files, ∃ y ∈ db.files,
      y.sha256sum = x.sha256sum ∧ y.size = x.size := by
    intro x hx
    obtain ⟨y,hy,rfl⟩ := List.mem_map.mp hx
    refine ⟨y,hy,?_⟩
    split <;> exact ⟨rfl,rfl⟩
  unfold Db.release at hx
  split at hx
  · exact ⟨x,hx,rfl,rfl⟩
  · split at hx
    · exact hsub x hx
    · split at hx <;> exact hsub x (List.mem_of_mem_filter hx)

theorem rm_files {x : FileRow} (hx : x ∈ (db.rm ctx data).files) :
    ∃ y ∈ db.files, y.sha256sum = x.sha256sum ∧ y.size = x.size := by
  unfold Db.rm at hx
  split at hx
  · exact ⟨x,hx,rfl,rfl⟩
  · have hrest := release_files hx
    exact hrest

theorem mkdir_files : (db.mkdir ctx data).files = db.files := by
  unfold Db.mkdir
  split <;> rfl

theorem rmdir_files : (db.rmdir ctx data).files = db.files := by
  unfold Db.rmdir
  split
  · rfl
  split
  · rfl
  split
  · rfl
  split <;> rfl

theorem commanded_files {cmdType : CmdType} (hc : Commanded db ctx data cmdType db')
    (ht : cmdType ≠ .touch) {x : FileRow} (hx : x ∈ db'.files) :
    ∃ y ∈ db.files, y.sha256sum = x.sha256sum ∧ y.size = x.size := by
  cases hc with
  | kept => exact ⟨x,hx,rfl,rfl⟩
  | registered => exact ⟨x,hx,rfl,rfl⟩
  | touched => exact absurd rfl ht
  | removed => exact rm_files hx
  | made =>
    rw [mkdir_files] at hx
    exact ⟨x,hx,rfl,rfl⟩
  | dropped =>
    rw [rmdir_files] at hx
    exact ⟨x,hx,rfl,rfl⟩

theorem touch_files {bs : List ℕ} {x : FileRow} (hx : x ∈ (db.touch ctx data bs).files) :
    (∃ y ∈ db.files, y.sha256sum = x.sha256sum ∧ y.size = x.size) ∨
      (x.sha256sum = bs ∧ x.size = 0) := by
  unfold Db.touch at hx
  split at hx
  · exact (link_files hx).imp_right fun h => h.2
  · exact .inl ⟨x,hx,rfl,rfl⟩

end Rows

section Commands

variable {lib : Library} {check : Op → World Unit → Choice → Bool} {content : Text → Content}
  {s s' : Site Unit} {e : Round Choice} {w w' : World Unit}

theorem emptyFile_lower : Hex.hexLower emptyFileBytes = emptyFileSha256 := by
  obtain ⟨bs,hb,-,hl⟩ := Hex.unhex_hash emptyFile_hash
  obtain rfl := Option.some.inj (emptyFile_unhex.symm.trans hb)
  exact hl

theorem whole_emptied (hw : Whole content w) (hempty : content emptyFileSha256 = [])
    (he : Emptied w w') (hdb : w'.db = w.db ∨ ∃ ctx data, w'.db = w.db.touch ctx data emptyFileBytes) :
    Whole content w' := by
  rcases he.files with ⟨hsame,hstore⟩ | hstore
  · exact whole_tables hw hstore he.storeDir fun x hx => ⟨x,hsame ▸ hx,rfl,rfl⟩
  have hread : ∀ path, w'.node.store.read path =
      if path = storePath w.node.storeDir emptyFileSha256 then
        some ((w.node.store.read (storePath w.node.storeDir emptyFileSha256)).getD [])
      else w.node.store.read path := by
    intro path
    rw [hstore,Inodes.read_openOrCreate]
  have hfile : (w.node.store.read (storePath w.node.storeDir emptyFileSha256)).getD [] = [] := by
    cases hf : w.node.store.read (storePath w.node.storeDir emptyFileSha256) with
    | none => rfl
    | some f =>
      have hpre := hw.begun _ f hf
      rw [hempty] at hpre
      exact List.prefix_nil.mp hpre
  have hold : ∀ y ∈ w.db.files, w'.node.store.read
      (storePath w'.node.storeDir (Hex.hexLower y.sha256sum)) =
        some (content (Hex.hexLower y.sha256sum)) := by
    intro y hy
    have hfull := hw.full y hy
    rw [he.storeDir,hread]
    split
    · rename_i hpath
      rw [← hpath,hfull,Option.getD_some]
    · exact hfull
  have hrows : ∀ x ∈ w'.db.files, (∃ y ∈ w.db.files, y.sha256sum = x.sha256sum ∧ y.size = x.size) ∨
      (x.sha256sum = emptyFileBytes ∧ x.size = 0) := by
    intro x hx
    rcases hdb with hsame | ⟨ctx,data,htouch⟩
    · exact .inl ⟨x,hsame ▸ hx,rfl,rfl⟩
    · rw [htouch] at hx
      exact touch_files hx
  constructor
  · intro hash f hf
    rw [he.storeDir,hread] at hf
    split at hf
    · obtain rfl := Option.some.inj hf
      rw [hfile]
      exact List.nil_prefix
    · exact hw.begun hash f hf
  · intro x hx
    rcases hrows x hx with ⟨y,hy,hsum,-⟩ | ⟨hsum,-⟩
    · rw [← hsum]
      exact hold y hy
    · rw [hsum,emptyFile_lower,he.storeDir,hread,if_pos rfl,hfile,hempty]
  · intro x hx
    rcases hrows x hx with ⟨y,hy,hsum,hsize⟩ | ⟨hsum,hsize⟩
    · rw [← hsum,← hsize]
      exact hw.sizes y hy
    · rw [hsum,emptyFile_lower,hsize,hempty]
      rfl

theorem solo_dispatch_emptied {ok : Op → World Unit → Choice → Prop} (ctx : ClientContext)
    (data : Text) : Solo lib ok () (dispatchControlCommand ctx .touch data)
      (fun _ => Emptied w) w := by
  have hback : ∀ {p : Server Unit}, Solo lib ok () p (fun _ => Emptied w) w →
      Solo lib ok () (p >>= fun _ => pure ctx) (fun _ => Emptied w) w :=
    fun hp => solo_bind (Machine.wlp_mono _ (fun _ _ h => h) hp)
  unfold dispatchControlCommand
  split
  · exact hback (solo_plain (plain_sendMsg _) fun _ w' h => ⟨h.storeDir,.inl ⟨h.db,h.store⟩⟩)
  · exact hback (solo_emptied ctx data)

theorem whole_trimmed (hw : Whole content w) (ht : Trimmed w w') (hc' : w'.db.Consistent)
    (hrows : ∀ x ∈ w'.db.files, ∃ y ∈ w.db.files, y.sha256sum = x.sha256sum ∧ y.size = x.size)
    (hgone : w'.node.unlinked = w.node.unlinked ∨ ∃ h, LastGone w.db w'.db h ∧
      w'.node.unlinked = w.node.unlinked ++ [storePath w.node.storeDir h]) : Whole content w' := by
  obtain ⟨gone,hun,hread⟩ := ht.files
  have hkept : ∀ x ∈ w'.db.files, storePath w.node.storeDir (Hex.hexLower x.sha256sum) ∉ gone := by
    intro x hx hin
    rcases hgone with hsame | ⟨h,hlast,hone⟩
    · rw [hsame] at hun
      rw [List.self_eq_append_right.mp hun] at hin
      cases hin
    · rw [hone] at hun
      obtain rfl := List.append_cancel_left hun
      have hpath := storePath_injective (List.mem_singleton.mp hin)
      exact hlast.2 ((referenced_iff hc').mpr ⟨x,hx,hpath⟩)
  constructor
  · intro h f hf
    rw [ht.storeDir,hread] at hf
    split at hf
    · cases hf
    · exact hw.begun h f hf
  · intro x hx
    obtain ⟨y,hy,hsum,-⟩ := hrows x hx
    rw [ht.storeDir,hread,if_neg (hkept x hx),← hsum]
    exact hw.full y hy
  · intro x hx
    obtain ⟨y,hy,hsum,hsize⟩ := hrows x hx
    rw [← hsum,← hsize]
    exact hw.sizes y hy

theorem sane_command (hok : StatementsHold (Checked check)) (hempty : content emptyFileSha256 = [])
    (h : Sane content s.world) {k : ℕ} {cmdType : CmdType} {data : Text}
    (he : e.request = .command k cmdType data)
    (hx : s.step (checkedServer lib check) () e = some s') : Sane content s'.world := by
  obtain ⟨ctx',-,hd⟩ := command_dispatched hok he hx
  have hc' := consistent_commanded h.consistent hd.tables
  refine ⟨hc',?_⟩
  obtain ⟨ctx,w,hrun,rfl⟩ := step_command he hx
  by_cases ht : cmdType = .touch
  · subst ht
    refine whole_emptied h.whole hempty
      (checked_run (Q := fun _ => Emptied s.world) hrun (solo_dispatch_emptied _ _)) ?_
    generalize hdb : w.db = db at hd
    have htables := hd.tables
    dsimp only at htables
    rw [hdb] at htables
    cases htables with
    | kept => exact .inl rfl
    | touched => exact .inr ⟨_,_,rfl⟩
  · refine whole_trimmed h.whole
      (checked_run (Q := fun _ => Trimmed s.world) hrun (solo_trimmed ht)) hc'
      (fun x hx => commanded_files hd.tables ht hx) ?_
    by_cases hr : cmdType = .rm
    · subst hr
      exact (removal_unlinks hok h.consistent he hx).only
    · rcases hd.unlinks.only with hsame | ⟨hash,hlast,-⟩
      · exact .inl hsame
      · rw [unlinks_other hr] at hlast
        cases hlast

end Commands

namespace Op

def consults : Op → Bool
  | .sql t => t.reads
  | _ => false

end Op

section Uploads

variable {lib : Library} {check : Op → World Unit → Choice → Bool} {content : Text → Content}
  {s s' : Site Unit} {e : Round Choice}

theorem solo_consults {ι α : Type} [DecidableEq ι] {ok : Op → World ι → Choice → Prop} {i : ι}
    {p : Server α} {w : World ι} (hp : p.Uses fun o => o.consults = true) :
    Solo lib ok i p (fun _ w' => w' = w) w := by
  refine Machine.wlp_uses (I := fun v => v = w) ?_ hp rfl
  rintro o v c r v' ho rfl hx
  cases o <;> simp only [Op.consults,Bool.false_eq_true] at ho
  rcases execute_sql hx with ⟨_,db,he,rfl⟩ | ⟨_,_,rfl⟩
  · have hdb := Statement.exec_reads ho v.db
    rw [he] at hdb
    subst hdb
    rfl
  · rfl

theorem solo_serve_whole {ok : Op → World Unit → Choice → Prop} {w : World Unit}
    (hok : StatementsHold ok) (hfiles : FilesHold () ok) (h : Sane content w)
    (hc : Honest content (w.node.conn ())) (hsent : (w.node.conn ()).sent = [])
    (hd : w.node.desc () = none) (userId : ℤ) (fullPath : Text) :
    Solo lib ok () (serveUpload userId fullPath) (fun _ => Whole content) w := by
  have hcontext : (buildTransferContext userId fullPath).Uses fun o => o.consults = true :=
    buildTransferContext_uses (fun _ _ => rfl) userId fullPath
  refine solo_bind (Machine.wlp_mono _ ?_ (solo_consults hcontext))
  rintro r _ rfl
  rcases r with _ | ⟨ctx,fileName⟩
  · have hidle : Idle (failPutsRequest (splitName fullPath) "上传失败：目标目录不存在".toList) := by
      refine ⟨rfl,fun r => ?_⟩
      cases (r : Option FilePacket) with
      | none => trivial
      | some packet => exact ⟨rfl,fun _ => ⟨rfl,fun _ => trivial⟩⟩
    refine Machine.wlp_mono _ ?_ (Machine.wlp_and _ (solo_idle (Q := fun _ => StoreKept () _) hidle
      fun _ _ h => h) (solo_tableless (Q := fun _ => SameTables _) (failPutsRequest_uses
        (fun _ ho => ho) _ _) fun _ _ h => h))
    rintro _ w' ⟨hkept,hsame⟩
    exact whole_tables h.whole hkept.store hkept.storeDir fun x hx => ⟨x,hsame.db ▸ hx,rfl,rfl⟩
  · exact solo_puts_whole hok hfiles h.consistent.keyed h.whole hc hsent hd ctx fileName

theorem honest_wellFormed {e : Round Choice} (h : e.Honest content) : e.wellFormed := by
  unfold Round.Honest at h
  unfold Round.wellFormed
  split
  · rename_i he
    rw [he] at h
    exact h.1.hash
  · trivial

theorem sane_step (hok : StatementsHold (Checked check)) (hfiles : FilesHold () (Checked check))
    (hempty : content emptyFileSha256 = []) (h : Sane content s.world) (hw : e.Honest content)
    (hx : s.step (checkedServer lib check) () e = some s') : Sane content s'.world := by
  cases he : e.request with
  | connect k =>
    obtain rfl := step_connect he hx
    exact h
  | command k cmdType data => exact sane_command hok hempty h he hx
  | upload userId fullPath peer =>
    have hform := honest_wellFormed hw
    unfold Round.Honest at hw
    rw [he] at hw
    refine ⟨consistent_step hok h.consistent hform hx,?_⟩
    obtain ⟨w,hrun,rfl⟩ := step_upload he hx
    have hconn : (s.world.meet () peer).node.conn () = peer := by
      simp [World.meet,Node.setConn,Node.setDesc]
    have hmet : Sane content (s.world.meet () peer) :=
      ⟨h.consistent,whole_tables h.whole rfl rfl fun x hx => ⟨x,hx,rfl,rfl⟩⟩
    refine checked_run (Q := fun _ => Whole content) hrun (solo_serve_whole hok hfiles hmet ?_ ?_ ?_
      userId fullPath)
    · rw [hconn]
      exact hw.1
    · rw [hconn]
      exact hw.2
    · simp [World.meet,Node.setDesc]

theorem empty_sane (hs : s.world.db = Db.empty)
    (hstore : ∀ path, s.world.node.store.names path = none) : Sane content s.world := by
  refine ⟨by rw [hs]; exact empty_consistent,?_,?_,?_⟩
  · intro h f hf
    rw [Inodes.read,hstore] at hf
    cases hf
  · rw [hs]
    simp [Db.empty]
  · rw [hs]
    simp [Db.empty]

end Uploads

abbrev HonestRun (lib : Library) (check : Op → World Unit → Choice → Bool)
    (content : Text → Content) (s t : Site Unit) : Prop :=
  Runs.Reached (Site.step (checkedServer lib check) ()) (fun _ e => e.Honest content) s t

/-- The runs of a site with its database all of whose uploads are honest. -/
abbrev HonestSqlRun (d : Database) (lib : Library) (check : Op → World Unit → Choice → Bool)
    (content : Text → Content) (s t : Site Unit) : Prop :=
  Runs.Reached (Site.step (checkedSqlServer d lib check) ()) (fun _ e => e.Honest content) s t

theorem honest_sql {d : Database} {lib : Library} {check : Op → World Unit → Choice → Bool}
    {cols : TextColumns} {content : Text → Content} {s t : Site Unit} (hd : Documented cols d)
    (hm : StatementsMeant cols (Checked check)) :
    HonestSqlRun d lib check content s t ↔ HonestRun lib check content s t := by
  rw [HonestSqlRun,checkedSqlServer_eq hd hm]

theorem step_sql {d : Database} {lib : Library} {check : Op → World Unit → Choice → Bool}
    {cols : TextColumns} {s : Site Unit} {e : Round Choice} (hd : Documented cols d)
    (hm : StatementsMeant cols (Checked check)) :
    s.step (checkedSqlServer d lib check) () e = s.step (checkedServer lib check) () e := by
  rw [checkedSqlServer_eq hd hm]

theorem sane_run {lib : Library} {check : Op → World Unit → Choice → Bool}
    {content : Text → Content} {s t : Site Unit} (hok : StatementsHold (Checked check))
    (hfiles : FilesHold () (Checked check)) (hempty : content emptyFileSha256 = [])
    (h : Sane content s.world) (run : HonestRun lib check content s t) : Sane content t.world :=
  reached_invariant (I := fun s : Site Unit => Sane content s.world) h
    (fun _ _ _ hu hw hx => sane_step hok hfiles hempty hu hw hx) run

namespace ResumedUpload

open SharedContent (start peer)

/-- Two letters, and nothing under the hash of the empty file. -/
def content (h : Text) : Content := if h = TwoUploads.hash then TwoUploads.content else []

/-- Only the connection of an upload may break. -/
def fragile : Op → World Unit → Choice → Bool :=
  understood caseless fun o _ c => decide (c ≠ .fault) || match o with
    | .recv _ => true
    | _ => false

/-- An upload breaks off after one letter and is taken up again; then another user
makes an empty file. -/
def rounds : List (Round Choice) :=
  [⟨.upload 1 "/a".toList peer,List.replicate 9 .ok ++ [.count 1,.count 1,.fault,.ok,.ok,.ok]⟩,
    ⟨.upload 1 "/a".toList peer,List.replicate 9 .ok ++ [.count 1,.count 1] ++ List.replicate 7 .ok⟩,
    ⟨.command 1 .touch "b".toList,List.replicate 8 .ok⟩]

theorem fragile_meant : StatementsMeant caseless (Checked fragile) := understood_meant _ _

theorem fragile_statements : StatementsHold (Checked fragile) := by
  intro t w c hc
  simpa using understood_check hc

theorem fragile_files : FilesHold () (Checked fragile) := by
  intro o w c hc
  have hc := understood_check hc
  cases o with
  | ftruncate size => exact fun d _ _ => by simpa using hc
  | mmap size => simpa [Steady] using hc
  | lseek pos => simpa [Steady] using hc
  | write buf => simpa [Steady] using hc
  | _ => trivial

theorem honest : Honest content peer where
  hash := by decide +kernel
  size := by decide +kernel
  answer q := by
    have hown : content peer.hello.hash = TwoUploads.content := by decide +kernel
    rw [hown]
    rfl

theorem rounds_honest (e : Round Choice) (he : e ∈ rounds) : e.Honest content := by
  simp only [rounds,List.mem_cons,List.not_mem_nil,or_false] at he
  rcases he with rfl | rfl | rfl
  · exact ⟨honest,rfl⟩
  · exact ⟨honest,rfl⟩
  · trivial

theorem fragile_step {t : Site Unit} {e : Round Choice} :
    t.step (checkedSqlServer (strictDatabase caseless) TwoUploads.lib fragile) () e =
      t.step (checkedServer TwoUploads.lib fragile) () e :=
  step_sql (strict_documented _) fragile_meant

theorem sql_run {s t : Site Unit} {events : List (Round Choice)}
    (he : ∀ e ∈ events, e.Honest content)
    (h : replay (Site.step (checkedServer TwoUploads.lib fragile) ()) (fun _ _ => true) events s =
      some t) : HonestSqlRun (strictDatabase caseless) TwoUploads.lib fragile content s t :=
  (honest_sql (strict_documented _) fragile_meant).mpr (replay_permitted (fun _ => he) h)

/-- The file nodes with the store files of their rows. -/
def stored (w : World Unit) : List (ℤ × Text × Option Content) :=
  w.db.paths.map fun p => (p.userId,p.path,(p.fileId.bind w.db.fileWithId).bind fun r =>
    w.node.store.read (storePath w.node.storeDir (Hex.hexLower r.sha256sum)))

end ResumedUpload

end WindCloud
