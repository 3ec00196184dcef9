import WindCloud.Server.NodePaths
import WindCloud.Server.Tree

/-!
# The tree over whole runs

`mkdir` and `touch` take the directory of a new node from the session, and its
path and name from the argument. As long as the argument names an entry of the
session's own directory, and that directory is still there, every row keeps its
place and no `rmdir` leaves a row without its directory.
-/

set_option autoImplicit false

namespace WindCloud
open CString Effect Function Runs

/-- The argument names an entry of the current directory itself. -/
def Direct (currentPath arg : Text) : Prop :=
  absPath currentPath arg = absPath currentPath (baseName (absPath currentPath arg))

/-- A new node is made in the directory of its session only, while it is there. -/
def Round.Local {ι C : Type} (s : Site ι) (e : Round C) : Prop :=
  match e.request with
  | .command k cmdType data =>
    cmdType = .mkdir ∨ cmdType = .touch → (s.sessions k).userId ≠ -1 →
      s.world.db.vacant (s.sessions k) data = true →
        Direct (s.sessions k).currentPath data ∧ Seated s.world.db (s.sessions k)
  | _ => True

/-- Such a request without quotes and backslashes. -/
structure Round.InPlace {ι C : Type} (s : Site ι) (e : Round C) : Prop where
  unquoted : e.request.Unquoted
  inside : e.Local s

abbrev Columns : Type := ℤ → Text → ℕ → Text → Prop

namespace Op

/-- Every node that the operation enters has these columns. -/
def Enters (new : Columns) : Op → Prop
  | .sql (.createNode userId path parentId fileName _)
  | .sql (.createFileNode userId path parentId fileName _) => new userId path parentId fileName
  | _ => True

end Op

structure Made (ctx : ClientContext) (cmdType : CmdType) (data : Text) (userId : ℤ) (path : Text)
    (parentId : ℕ) (fileName : Text) : Prop where
  creates : cmdType = .mkdir ∨ cmdType = .touch
  inside : ctx.userId ≠ -1
  named : data ≠ []
  valid : isValidVfsName (baseName (absPath ctx.currentPath data)) = true
  owner : userId = ctx.userId
  place : path = absPath ctx.currentPath data
  dir : parentId = ctx.currentDirId
  name : fileName = baseName path

structure Filed (ctx : ClientContext) (arg : Text) (userId : ℤ) (path : Text) (parentId : ℕ)
    (fileName : Text) : Prop where
  owner : userId = ctx.userId
  place : buildFullVirtualPath fullPathLen ctx arg = some path
  dir : parentId = ctx.currentDirId
  name : fileName = baseName path

section Programs

variable {new : Columns}

theorem enters_tableless (o : Op) (ho : o.tableless = true) : o.Enters new := by
  cases o <;> trivial

theorem enters_still (o : Op) (ho : o.still = true) : o.Enters new := by
  cases o with
  | sql t => cases t <;> trivial
  | _ => trivial

theorem enters_enters (t : Statement) (ht : t.enters = true) : (Op.sql t).Enters new := by
  cases t <;> trivial

variable {ctx : ClientContext} {data : Text}

theorem cd_enters : (handleCd ctx data).Uses (Op.Enters new) := by
  have hreply : ∀ msg, (sendMsg msg).Uses (Op.Enters new) := fun _ => ⟨trivial,fun _ => trivial⟩
  have henter : ∀ path, (enterDir ctx path).Uses (Op.Enters new) := by
    intro path
    refine Program.uses_bind _ _ (getNodeByPath_uses _ (fun _ _ => trivial) _ _) fun r => ?_
    rcases r with _ | ⟨targetId,nodeType⟩
    · exact Program.uses_bind _ _ (hreply _) fun _ => trivial
    · dsimp only
      split <;> exact Program.uses_bind _ _ (hreply _) fun _ => trivial
  unfold handleCd
  split
  · exact Program.uses_bind _ _ (hreply _) fun _ => trivial
  split
  · exact Program.uses_bind _ _ (strcpy_uses _ trivial _ _) fun _ => henter _
  split
  · exact Program.uses_bind _ _ (hreply _) fun _ => trivial
  · exact Program.uses_bind _ _ (strcpy_uses _ trivial _ _) fun _ => henter _

theorem login_enters : (handleLogin data).Uses (Op.Enters new) := by
  have hrefuse : ∀ message, (refuseLogin message).Uses (Op.Enters new) :=
    fun _ => ⟨trivial,fun _ => trivial⟩
  unfold handleLogin
  split
  · exact hrefuse _
  refine Program.uses_bind _ _ (perform_uses trivial) fun r => ?_
  rcases (r : Option (ℕ × Text × Text)) with _ | ⟨dbUserId,storedHash,salt⟩
  · exact hrefuse _
  refine Program.uses_bind _ _ (hashPassword_uses _ (fun _ => trivial) _ _) fun computedHash => ?_
  split
  · refine Program.uses_bind _ _ (jwtCreateForUser_uses _ trivial (fun _ => trivial) _ _)
      fun token => ?_
    cases token with
    | none => exact hrefuse _
    | some token => exact ⟨trivial,fun _ => trivial⟩
  · exact hrefuse _

theorem register_enters : (handleRegister data).Uses (Op.Enters new) := by
  unfold handleRegister
  split
  · exact ⟨trivial,fun _ => trivial⟩
  refine Program.uses_bind _ _ (generateSalt_uses _ (fun _ => trivial) trivial fun _ => trivial)
    fun salt => ?_
  refine Program.uses_bind _ _ (hashPassword_uses _ (fun _ => trivial) _ _) fun passwordHash => ?_
  refine Program.uses_bind _ _ (perform_uses trivial) fun r => ?_
  cases (r : Bool) with
  | false => exact ⟨trivial,fun _ => trivial⟩
  | true =>
    refine Program.uses_bind _ _ (registeredId_uses _ (fun _ => trivial) _) fun _ => ?_
    exact ⟨trivial,fun _ => trivial⟩

theorem rm_enters : (handleRm ctx data).Uses (Op.Enters new) := by
  have hreply : ∀ msg, (sendMsg msg).Uses (Op.Enters new) := fun _ => ⟨trivial,fun _ => trivial⟩
  unfold handleRm
  split
  · exact hreply _
  refine Program.uses_bind _ _ (strcpy_uses _ trivial _ _) fun path => ?_
  refine Program.uses_bind _ _ (getNodeByPath_uses _ (fun _ _ => trivial) _ _) fun r => ?_
  rcases r with _ | ⟨targetId,nodeType⟩
  · exact hreply _
  dsimp only
  split
  · exact hreply _
  refine Program.uses_bind _ _ (getFileInfoByPath_uses _ (fun _ _ => trivial) _ _) fun r => ?_
  rcases r with _ | ⟨_,fileId⟩
  · exact hreply _
  have hremove : (removeFile ctx targetId fileId).Uses (Op.Enters new) := by
    refine Program.uses_bind _ _ (perform_uses trivial) fun r => ?_
    cases (r : Bool) with
    | false => trivial
    | true =>
      refine release_uses _ ?_ trivial (fun _ => trivial) fileId
      intro t ht
      cases t <;> trivial
  refine Program.uses_bind _ _ hremove fun r => ?_
  cases r <;> exact hreply _

theorem rmdir_enters : (handleRmdir ctx data).Uses (Op.Enters new) := by
  have hreply : ∀ msg, (sendMsg msg).Uses (Op.Enters new) := fun _ => ⟨trivial,fun _ => trivial⟩
  unfold handleRmdir
  split
  · exact hreply _
  refine Program.uses_bind _ _ (strcpy_uses _ trivial _ _) fun path => ?_
  refine Program.uses_bind _ _ (getNodeByPath_uses _ (fun _ _ => trivial) _ _) fun r => ?_
  rcases r with _ | ⟨targetId,nodeType⟩
  · exact hreply _
  dsimp only
  split
  · exact hreply _
  refine Program.uses_bind _ _ (isDirEmpty_uses _ (fun _ _ => trivial) _ _) fun r => ?_
  rcases r with _ | _ | _
  · exact hreply _
  · exact hreply _
  · refine Program.uses_bind _ _ (perform_uses trivial) fun r => ?_
    cases (r : Bool) <;> exact hreply _

theorem dispatch_enters (ctx : ClientContext) (cmdType : CmdType) (data : Text) :
    (dispatchControlCommand ctx cmdType data).Uses (Op.Enters (Made ctx cmdType data)) := by
  have hback : ∀ {α : Type} {p : Server α}, p.Uses (Op.Enters (Made ctx cmdType data)) →
      (p >>= fun _ => pure ctx).Uses (Op.Enters (Made ctx cmdType data)) :=
    fun hp => Program.uses_bind _ _ hp fun _ => trivial
  have hreply : ∀ msg, (sendMsg msg).Uses (Op.Enters (Made ctx cmdType data)) :=
    fun _ => ⟨trivial,fun _ => trivial⟩
  have hstill : ∀ {p : Server Unit}, Still p →
      (p >>= fun _ => pure ctx).Uses (Op.Enters (Made ctx cmdType data)) :=
    fun hp => hback (Program.uses_mono enters_still hp)
  unfold dispatchControlCommand
  split
  · exact hback (hreply _)
  rename_i hout
  have hin : cmdType = .mkdir ∨ cmdType = .touch → ctx.userId ≠ -1 := by
    rintro hc hu
    refine hout ⟨hu,?_,?_⟩ <;> rcases hc with rfl | rfl <;> decide
  cases cmdType with
  | login => exact Program.uses_bind _ _ login_enters fun _ => trivial
  | register => exact hback register_enters
  | pwd => exact hback (hreply _)
  | cd => exact cd_enters
  | ls => exact hstill (still_ls ctx)
  | touch =>
    refine hback (creation_uses _ trivial (fun _ _ => trivial) (fun _ => trivial) fun hne hv => ?_)
    refine Program.uses_bind _ _ (createEmptyFileNode_uses _ enters_enters (fun _ => trivial) trivial
      (fun _ => trivial) fun _ => ⟨.inr rfl,hin (.inr rfl),hne,hv,rfl,rfl,rfl,rfl⟩) fun r => ?_
    cases r <;> exact hreply _
  | rm => exact hback rm_enters
  | mkdir =>
    refine hback (creation_uses _ trivial (fun _ _ => trivial) (fun _ => trivial) fun hne hv => ?_)
    refine Program.uses_bind _ _ (perform_uses ?_) fun r => ?_
    · exact ⟨.inl rfl,hin (.inl rfl),hne,hv,rfl,rfl,rfl,rfl⟩
    · cases (r : Bool) <;> exact hreply _
  | rmdir => exact hback rmdir_enters
  | gets => exact hstill (still_plan ctx data)
  | getsRange => exact hstill (still_rangeTicket ctx data)
  | puts => exact hstill (still_transferTicket ctx .puts data)
  | invalid | reply => exact hback (hreply _)

theorem puts_enters (ctx : ClientContext) (arg : Text) :
    (handlePuts ctx arg).Uses (Op.Enters (Filed ctx arg)) :=
  handlePuts_uses enters_tableless enters_enters (fun _ _ => trivial)
    fun _ hpath _ => ⟨rfl,hpath,rfl,rfl⟩

end Programs

section Worlds

variable {ι : Type} [DecidableEq ι] {lib : Library} {ok : Op → World ι → Choice → Prop} {i : ι}
  {new : Columns} {w w' : World ι} {α : Type}

/-- Rows of nodes are old ones, or have been entered. -/
def Adds (new : Columns) (w w' : World ι) : Prop :=
  ∀ r ∈ w'.db.paths, r ∈ w.db.paths ∨ new r.userId r.path r.parentId r.fileName

theorem exec_adds {t : Statement} (ht : (Op.sql t).Enters new) (db : Db) :
    ∀ r ∈ (t.exec db).2.paths, r ∈ db.paths ∨ new r.userId r.path r.parentId r.fileName := by
  intro r hr
  by_cases hread : t.reads = true
  · rw [Statement.exec_reads hread] at hr
    exact .inl hr
  cases t <;> simp only [Statement.reads,not_true] at hread <;> simp only [Statement.exec] at hr
  case insertUser => split at hr <;> exact .inl hr
  case createNode =>
    split at hr
    · exact .inl hr
    · rcases List.mem_append.mp hr with hr | hr
      · exact .inl hr
      · obtain rfl := List.mem_singleton.mp hr
        exact .inr ht
  case createFileNode =>
    split at hr
    · exact .inl hr
    · rcases List.mem_append.mp hr with hr | hr
      · exact .inl hr
      · obtain rfl := List.mem_singleton.mp hr
        exact .inr ht
  case deleteNode => exact .inl (List.mem_of_mem_filter hr)
  case insertFile =>
    split at hr
    · exact .inl hr
    · split at hr <;> exact .inl hr
  case addRefCount => exact .inl hr
  case subRefCount => exact .inl hr
  case deleteFile => exact .inl hr
  case upsertSource =>
    rw [putSource_paths] at hr
    exact .inl hr
  case deleteSources => exact .inl hr

theorem execute_adds {o : Op} {r : o.Res} {c : Choice} (ho : o.Enters new)
    (h : execute lib o i w c = some (r,w')) : Adds new w w' := by
  by_cases hs : o.isSql = false
  · intro x hx
    rw [execute_db hs h] at hx
    exact .inl hx
  cases o <;> simp only [Op.isSql,not_true] at hs
  rename_i t
  rcases execute_sql h with ⟨_,db,he,rfl⟩ | ⟨_,_,rfl⟩
  · intro x hx
    refine exec_adds ho w.db x ?_
    rw [he]
    exact hx
  · exact fun x hx => .inl hx

theorem solo_adds {p : Server α} (hp : p.Uses (Op.Enters new)) :
    Solo lib ok i p (fun _ w' => Adds new w w') w := by
  refine Machine.wlp_uses (fun o v c r v' ho hv hx x hx' => ?_) hp fun x hx => .inl hx
  rcases execute_adds ho hx x hx' with hold | hnew
  · exact hv x hold
  · exact .inr hnew

theorem solo_along {p : Server α} {Q : α → World ι → Prop} (h : Along lib i p Q w) :
    Solo lib ok i p Q w := by
  induction p generalizing w with
  | ret a => exact h
  | op o k ih => exact fun c r w₁ _ hx => ih r (h ([],c) r w₁ trivial hx)

end Worlds

section Steps

variable {ι : Type} [DecidableEq ι] {lib : Library} {ok : Op → World ι → Choice → Prop} {i : ι}
  {w w' : World ι} {ctx : ClientContext} {cmdType : CmdType} {data : Text}

theorem unpruning_creates (hc : cmdType = .mkdir ∨ cmdType = .touch) :
    Unpruning (dispatchControlCommand ctx cmdType data) := by
  have hback : ∀ {p : Server Unit}, Unpruning p → Unpruning (p >>= fun _ => pure ctx) :=
    fun hp => Program.uses_bind _ _ hp fun _ => trivial
  unfold dispatchControlCommand
  split
  · exact hback (unpruning_sendMsg _)
  · rcases hc with rfl | rfl
    · exact hback (unpruning_mkdir ctx data)
    · exact hback (unpruning_touch ctx data)

omit [DecidableEq ι] in
theorem made_vacant (hk : w'.db.Keyed) (hkept : ∀ r ∈ w.db.paths, r ∈ w'.db.paths) {r : PathRow}
    (hr : r ∈ w'.db.paths) (hnew : r ∉ w.db.paths)
    (hm : Made ctx cmdType data r.userId r.path r.parentId r.fileName) :
    w.db.vacant ctx data = true := by
  refine vacant_iff.mpr ⟨hm.named,hm.valid,?_⟩
  have hroot : absPath ctx.currentPath data ≠ "/".toList := by
    intro hroot
    have hvalid := hm.valid
    rw [hroot] at hvalid
    exact absurd hvalid (by decide)
  rw [Db.lookup,if_neg hroot]
  refine Option.map_eq_none_iff.mpr (nodeAt_none.mpr fun x hx hat => hnew ?_)
  obtain rfl : x = r := Rows.unique_inj hk.places (hkept x hx) hr
    (Prod.ext (hat.1.trans hm.owner.symm) (hat.2.trans hm.place.symm))
  exact hx

theorem solo_tree_command (h : w.db.Tree)
    (hplace : cmdType = .mkdir ∨ cmdType = .touch → ctx.userId ≠ -1 →
      w.db.vacant ctx data = true → Direct ctx.currentPath data ∧ Seated w.db ctx) :
    Solo lib ok i (dispatchControlCommand ctx cmdType data) (fun _ w' => w'.db.Tree) w := by
  have hadds : Solo lib ok i (dispatchControlCommand ctx cmdType data)
      (fun _ w' => Adds (Made ctx cmdType data) w w') w :=
    solo_adds (dispatch_enters ctx cmdType data)
  by_cases hc : cmdType = .mkdir ∨ cmdType = .touch
  · have hkept : Solo lib ok i (dispatchControlCommand ctx cmdType data)
        (fun _ w' => NodesKept w w') w :=
      solo_along (along_kept (unpruning_creates hc) fun _ _ h => h)
    refine Machine.wlp_mono _ ?_ (Machine.wlp_and _ hkept hadds)
    rintro _ w' ⟨hk,ha⟩
    refine tree_more h (hk.keyed h.keyed) hk.rows fun r hr hnew => ?_
    have hm := (ha r hr).resolve_left hnew
    have hvacant := made_vacant (hk.keyed h.keyed) hk.rows hr hnew hm
    obtain ⟨hdirect,hseat⟩ := hplace hc hm.inside hvacant
    have hname : r.fileName = baseName (absPath ctx.currentPath data) := hm.name.trans
      (congrArg baseName hm.place)
    have hpath : r.path = absPath ctx.currentPath r.fileName := by
      rw [hname]
      exact hm.place.trans hdirect
    have hplain : '/' ∉ r.fileName := by
      rw [hname]
      exact baseName_plain _
    refine ⟨?_,?_,hplain⟩
    · rw [hpath,hm.owner,hm.dir]
      exact place_entry h hplain (hseat hm.inside)
    · intro hnil
      have hvalid := hm.valid
      rw [← hname,hnil] at hvalid
      exact absurd hvalid (by decide)
  · refine Machine.wlp_mono _ ?_ (Machine.wlp_and _
      (solo_along (along_dispatch h.keyed ctx cmdType data)) hadds)
    rintro _ w' ⟨hw,ha⟩
    refine tree_fewer h hw.keyed (fun r hr => (ha r hr).resolve_right fun hm => hc hm.creates) ?_
    intro p hp ht
    rcases hw.dirs p hp ht with hin | ⟨-,-,hu,-,hempty⟩
    · exact .inl hin
    · rw [← hu] at hempty
      exact .inr hempty

theorem solo_found {userId : ℤ} {path : Text} {β : Type} {f : Option (ℕ × ℕ) → Server β}
    {Q : β → World ι → Prop}
    (h : ∀ r w', w'.db = w.db →
      (∀ id type, r = some (id,type) → w.db.lookup userId path = some (id,type)) →
      Solo lib ok i (f r) Q w') :
    Solo lib ok i (daoGetNodeByPath userId path >>= f) Q w := by
  unfold daoGetNodeByPath
  split
  · rename_i hroot
    refine h _ w rfl fun id type he => ?_
    rw [Db.lookup,if_pos hroot]
    exact he
  · rename_i hroot
    intro c r w₁ _ hx
    rcases execute_sql hx with ⟨_,db,he,rfl⟩ | ⟨_,hfail,rfl⟩
    · refine h r _ (congrArg Prod.snd he).symm fun id type hr => ?_
      rw [Db.lookup,if_neg hroot]
      exact (congrArg Prod.fst he).trans hr
    · refine h r _ rfl fun id type hr => ?_
      rw [hfail] at hr
      cases hr

theorem solo_transferContext {userId : ℤ} {fullPath : Text} :
    Solo lib ok i (buildTransferContext userId fullPath) (fun r w' => w'.db = w.db ∧
      ∀ ctx arg, r = some (ctx,arg) → (ctx.currentPath = "/".toList ∧ ctx.currentDirId = 0) ∨
        ∃ r ∈ w.db.paths, r.id = ctx.currentDirId ∧ r.userId = ctx.userId ∧ r.type = 1 ∧
          r.path = ctx.currentPath) w := by
  unfold buildTransferContext
  split
  · exact ⟨rfl,fun _ _ he => absurd he.symm (Option.some_ne_none _)⟩
  rename_i parent fileName hsplit
  have hshort : parent.take 255 = parent := by
    refine List.take_of_length_le ?_
    unfold splitFullPath at hsplit
    split at hsplit
    · cases hsplit
    split at hsplit
    · cases hsplit
    split at hsplit
    · cases hsplit
    split at hsplit
    · obtain ⟨rfl,-⟩ := Prod.mk.inj (Option.some.inj hsplit)
      decide
    split at hsplit
    · cases hsplit
    · obtain ⟨rfl,-⟩ := Prod.mk.inj (Option.some.inj hsplit)
      omega
  split
  · rename_i hroot
    refine ⟨rfl,fun ctx arg he => .inl ?_⟩
    obtain ⟨rfl,-⟩ := Prod.mk.inj (Option.some.inj he)
    exact ⟨hshort.trans hroot,rfl⟩
  · rename_i hne
    refine solo_found fun r w₁ hdb hfound => ?_
    rcases r with _ | ⟨dirId,nodeType⟩
    · exact ⟨hdb,fun _ _ he => absurd he.symm (Option.some_ne_none _)⟩
    dsimp only
    split
    · exact ⟨hdb,fun _ _ he => absurd he.symm (Option.some_ne_none _)⟩
    · rename_i ht
      obtain rfl := not_not.mp ht
      refine ⟨hdb,fun ctx arg he => .inr ?_⟩
      obtain ⟨rfl,-⟩ := Prod.mk.inj (Option.some.inj he)
      rcases lookup_some (hfound dirId 1 rfl) with ⟨hroot,-⟩ | ⟨x,hx,hu,hp,hid,htype⟩
      · exact absurd hroot hne
      · exact ⟨x,hx,hid,hu,htype,hp.trans hshort.symm⟩

theorem solo_tree_upload (h : w.db.Tree) (userId : ℤ) (fullPath : Text) :
    Solo lib ok i (serveUpload userId fullPath) (fun _ w' => w'.db.Tree) w := by
  refine solo_bind (Machine.wlp_mono _ ?_ solo_transferContext)
  rintro r w₁ ⟨hdb,hdir⟩
  rw [← hdb] at h hdir
  rcases r with _ | ⟨ctx,arg⟩
  · have hfail : (failPutsRequest (splitName fullPath) "上传失败：目标目录不存在".toList).Uses
        fun o => o.tableless = true := failPutsRequest_uses (fun _ ho => ho) _ _
    refine solo_tableless hfail fun _ w' hs => ?_
    rw [hs.db]
    exact h
  · have hkept : Solo lib ok i (handlePuts ctx arg) (fun _ w' => NodesKept w₁ w') w₁ :=
      solo_along (along_kept (handlePuts_uses unpruning_tableless unpruning_enters
        (fun _ _ => rfl) fun _ _ _ => rfl) fun _ _ hk => hk)
    refine Machine.wlp_mono _ ?_ (Machine.wlp_and _ hkept (solo_adds (puts_enters ctx arg)))
    rintro _ w' ⟨hk,ha⟩
    refine tree_more h (hk.keyed h.keyed) hk.rows fun r hr hnew => ?_
    have hf := (ha r hr).resolve_left hnew
    obtain ⟨hpath,hcheck,hplain,-⟩ := transferFullPath_eq hf.place
    have hname : r.fileName = arg := by
      rw [hf.name,hpath,baseName_joined hplain]
    refine ⟨?_,?_,hname ▸ hplain⟩
    · rw [hf.owner,hf.dir,hpath,hname]
      exact place_entry h hplain (hdir ctx arg rfl)
    · rw [hname]
      rintro rfl
      exact absurd hcheck (by decide)

theorem tree_step {s s' : Site ι} {e : Round Choice} (h : s.world.db.Tree) (hin : e.Local s)
    (hx : s.step (server ι lib) i e = some s') : s'.world.db.Tree := by
  cases he : e.request with
  | connect k =>
    obtain rfl := step_connect he hx
    exact h
  | command k cmdType data =>
    obtain ⟨ctx,w,hrun,rfl⟩ := step_command he hx
    unfold Round.Local at hin
    rw [he] at hin
    exact Machine.exec_wlp (Machine.run_exec hrun) (solo_tree_command h hin)
  | upload userId fullPath peer =>
    obtain ⟨w,hrun,rfl⟩ := step_upload he hx
    exact Machine.exec_wlp (Machine.run_exec hrun)
      (solo_tree_upload (w := s.world.meet i peer) h userId fullPath)

/-- What an `rmdir` takes out has nothing below it. -/
theorem rmdir_leaves {s s' : Site ι} {k : ℕ} {outcomes : List Choice} (h : s.world.db.Tree)
    (hx : s.step (server ι lib) i ⟨.command k .rmdir data,outcomes⟩ = some s') {r x : PathRow}
    (hr : r ∈ s.world.db.paths) (hgone : r ∉ s'.world.db.paths) (hx' : x ∈ s.world.db.paths)
    (hu : x.userId = r.userId) : ¬Below r.path x.path := by
  intro hb
  obtain ⟨ht,y,hy,hyu,hyid⟩ := child_of_below h hr hx' hu hb
  obtain ⟨ctx,w,hrun,rfl⟩ := step_command rfl hx
  have hw := Machine.exec_wlp (Machine.run_exec hrun)
    (solo_along (along_dispatch h.keyed (s.sessions k) .rmdir data))
  rcases hw.dirs r hr ht with hkept | ⟨-,-,hru,-,hempty⟩
  · exact hgone hkept
  · exact hempty y hy ⟨hyu.trans hru,hyid⟩

end Steps

/-- In every run from tables without nodes in which new nodes are made in the
directories of their sessions, every row has its place, and no `rmdir` takes out
a row with another one of its user below it. -/
theorem places_agree {ι : Type} [DecidableEq ι] (lib : Library) (i : ι) (s t : Site ι)
    (hk : s.world.db.Keyed) (hempty : s.world.db.paths = [])
    (run : Runs.Reached (Site.step (server ι lib) i) (fun s e => e.InPlace s) s t) :
    t.world.db.Placed ∧ ∀ k data outcomes t', unquoted data = true →
      t.step (server ι lib) i ⟨.command k .rmdir data,outcomes⟩ = some t' →
      ∀ r ∈ t.world.db.paths, r ∉ t'.world.db.paths →
        ∀ x ∈ t.world.db.paths, x.userId = r.userId → ¬Below r.path x.path := by
  have hstart : s.world.db.Tree := by
    refine ⟨hk,?_,?_,?_⟩ <;> intro r hr <;> rw [hempty] at hr <;> cases hr
  have htree : t.world.db.Tree :=
    reached_invariant (I := fun s : Site ι => s.world.db.Tree) hstart
      (fun u e u' hu hin hx => tree_step hu hin.inside hx) run
  exact ⟨htree.placed,fun k data outcomes t' _ hx r hr hgone x hx' hu =>
    rmdir_leaves htree hx hr hgone hx' hu⟩

namespace Nested

open Wandering (start)

def fine (n : ℕ) : List Choice := List.replicate n .ok

/-- The user logs in, makes a directory, enters it and makes another one there. -/
def rounds : List (Round Choice) :=
  [⟨.command 0 .login "a/b".toList,fine 2 ++ [.value 0] ++ fine 2⟩,
    ⟨.command 0 .mkdir "d".toList,fine 3⟩,⟨.command 0 .cd "d".toList,fine 2⟩,
    ⟨.command 0 .mkdir "e".toList,fine 3⟩]

/-- The user logs in and makes a directory and, from the root, one in it. -/
def shortcut : List (Round Choice) :=
  [⟨.command 0 .login "a/b".toList,fine 2 ++ [.value 0] ++ fine 2⟩,
    ⟨.command 0 .mkdir "d".toList,fine 3⟩,⟨.command 0 .mkdir "d/e".toList,fine 3⟩]

def observe (s : Site Unit) : List (Text × ℕ × Text) :=
  s.world.db.paths.map fun r => (r.path,r.parentId,r.fileName)

instance (currentPath arg : Text) : Decidable (Direct currentPath arg) :=
  inferInstanceAs (Decidable (_ = _))

/-- New directories are made in the directory of their session, and no files. -/
def tidy (s : Site Unit) (e : Round Choice) : Bool :=
  decide e.request.Unquoted && match e.request with
    | .command _ .touch _ => false
    | .command k .mkdir data =>
      decide (Direct (s.sessions k).currentPath data) &&
        (decide ((s.sessions k).currentPath = "/".toList ∧ (s.sessions k).currentDirId = 0) ||
          s.world.db.paths.any fun r => decide (r.id = (s.sessions k).currentDirId ∧
            r.userId = (s.sessions k).userId ∧ r.type = 1 ∧ r.path = (s.sessions k).currentPath))
    | _ => true

theorem tidy_inPlace (s : Site Unit) (e : Round Choice) (h : tidy s e = true) : e.InPlace s := by
  obtain ⟨request,outcomes⟩ := e
  obtain ⟨hunquoted,htidy⟩ := Bool.and_eq_true_iff.mp h
  refine ⟨of_decide_eq_true hunquoted,?_⟩
  cases request with
  | connect k => trivial
  | upload userId fullPath peer => trivial
  | command k cmdType data =>
    rintro (rfl | rfl) _ _
    · obtain ⟨hdirect,hseat⟩ := Bool.and_eq_true_iff.mp htidy
      refine ⟨of_decide_eq_true hdirect,fun _ => ?_⟩
      rcases Bool.or_eq_true_iff.mp hseat with hroot | hdir
      · exact .inl (of_decide_eq_true hroot)
      · obtain ⟨r,hr,he⟩ := List.any_eq_true.mp hdir
        exact .inr ⟨r,hr,of_decide_eq_true he⟩
    · cases htidy

end Nested

open Nested in
theorem nested_directory_agrees :
    ∃ t, Runs.Reached (Site.step (server Unit LongName.lib) ()) (fun s e => e.InPlace s)
        Wandering.start t ∧
      observe t = [("/d".toList,0,"d".toList),("/d/e".toList,1,"e".toList)] ∧
      t.world.db.Placed := by
  have h : (replay (Site.step (server Unit LongName.lib) ()) tidy rounds Wandering.start).map
      observe = some [("/d".toList,0,"d".toList),("/d/e".toList,1,"e".toList)] := by decide +kernel
  obtain ⟨t,ht,ho⟩ := Option.map_eq_some_iff.mp h
  have hrun := reached_mono tidy_inPlace (replay_reached ht)
  exact ⟨t,hrun,ho,
    (places_agree LongName.lib () Wandering.start t Wandering.keyed rfl hrun).1⟩

open Nested in
/-- A directory made from outside its parent stands under the root. -/
theorem nested_directory_misplaced :
    ¬∀ (ι : Type) [DecidableEq ι] (lib : Library) (i : ι) (s t : Site ι), s.world.db.Keyed →
      s.world.db.paths = [] → Runs.Reached (Site.step (server ι lib) i) (fun _ _ => True) s t →
      t.world.db.Placed ∧ ∀ k data outcomes t',
        t.step (server ι lib) i ⟨.command k .rmdir data,outcomes⟩ = some t' →
        ∀ r ∈ t.world.db.paths, r ∉ t'.world.db.paths →
          ∀ x ∈ t.world.db.paths, x.userId = r.userId → ¬Below r.path x.path := by
  intro hall
  have h : (replay (Site.step (server Unit LongName.lib) ()) (fun _ _ => true) shortcut
      Wandering.start).map (fun t => t.world.db.paths) =
      some [⟨1,1,"/d".toList,none,0,"d".toList,1⟩,⟨2,1,"/d/e".toList,none,0,"e".toList,1⟩] := by
    decide +kernel
  obtain ⟨t,ht,hrows⟩ := Option.map_eq_some_iff.mp h
  have hrun := reached_mono (fun _ _ _ => trivial) (replay_reached ht)
  have hplaced := (hall Unit LongName.lib () Wandering.start t Wandering.keyed rfl hrun).1
  rw [Db.Placed,hrows] at hplaced
  rcases hplaced ⟨2,1,"/d/e".toList,none,0,"e".toList,1⟩ (by simp) with ⟨-,hpath⟩ | ⟨p,hp,hid,-⟩
  · exact absurd hpath (by decide)
  · rw [hrows] at hp
    rcases List.mem_cons.mp hp with rfl | hp
    · exact absurd hid (by decide)
    · obtain rfl := List.mem_singleton.mp hp
      exact absurd hid (by decide)

end WindCloud
