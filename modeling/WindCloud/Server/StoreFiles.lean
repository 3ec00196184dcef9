import WindCloud.Server.Inventory
import WindCloud.Server.UploadRuns

/-!
# What a request does to the store

Of the control commands only `touch` makes a file, the empty one, and only `rm`
takes one away. Everything else that a handler does leaves the store as it is.
-/

set_option autoImplicit false

namespace WindCloud
open CString Effect Function

/-- A beginning of its content in every file of the store, and all of it in the
file of a row, which has its size. -/
structure Whole {ι : Type} (content : Text → Content) (w : World ι) : Prop where
  begun : ∀ h f, w.node.store.read (storePath w.node.storeDir h) = some f → f <+: content h
  full : ∀ r ∈ w.db.files, w.node.store.read
    (storePath w.node.storeDir (Hex.hexLower r.sha256sum)) = some (content (Hex.hexLower r.sha256sum))
  sizes : ∀ r ∈ w.db.files, r.size = (content (Hex.hexLower r.sha256sum)).length

section Operations

attribute [local simp] execute

variable {ι : Type} [DecidableEq ι] {lib : Library} {i : ι} {w w' : World ι} {c : Choice}

/-- A plain operation changes neither the tables nor the store. -/
structure Untouched (w w' : World ι) : Prop where
  db : w'.db = w.db
  store : w'.node.store = w.node.store
  storeDir : w'.node.storeDir = w.node.storeDir

omit [DecidableEq ι] in
theorem untouched_trans {w'' : World ι} (h : Untouched w w') (h' : Untouched w' w'') :
    Untouched w w'' :=
  ⟨h'.db.trans h.db,h'.store.trans h.store,h'.storeDir.trans h.storeDir⟩

theorem execute_plain {o : Op} {r : o.Res} (ho : o.plain = true)
    (h : execute lib o i w c = some (r,w')) : Untouched w w' := by
  by_cases hs : o.isSql = false
  · have hi : o.idle = true := by
      cases o <;> first | exact ho | cases hs
    obtain ⟨hstore,hdir,-,-⟩ := execute_idle hi h
    exact ⟨execute_db hs h,hstore,hdir⟩
  · cases o <;> simp only [Op.isSql,not_true] at hs
    rcases execute_sql h with ⟨_,db,he,rfl⟩ | ⟨_,_,rfl⟩
    · have hdb := Statement.exec_reads ho w.db
      rw [he] at hdb
      exact ⟨hdb,rfl,rfl⟩
    · exact ⟨rfl,rfl,rfl⟩

theorem execute_closed {o : Op} {r : o.Res} (ho : o.idle = true) (hw : w.node.desc i = none)
    (h : execute lib o i w c = some (r,w')) : w'.node.desc i = none := by
  by_cases hq : o.quiet = true
  · rw [execute_quiet hq h]
    exact hw
  cases o <;> simp only [Op.idle,Op.quiet,not_true,Bool.false_eq_true] at ho hq
  case sql t => rcases execute_sql h with ⟨_,db,_,rfl⟩ | ⟨_,_,rfl⟩ <;> exact hw
  case close =>
    rw [execute_close h]
    simp [World.setNode,Node.setDesc]
  case recv once => rcases execute_recv h with ⟨n,_,_,_,_,rfl⟩ | ⟨_,_,rfl⟩ <;> exact hw
  case send p => rcases execute_send h with ⟨_,_,rfl⟩ | ⟨_,_,rfl⟩ <;> exact hw
  case randBytes count => cases c <;> simp at h <;> grind
  case jwtEncode p => cases c <;> simp at h <;> grind
  case ticketRegister now id =>
    cases c <;> simp at h
    obtain ⟨_,rfl⟩ := h
    exact hw
  case ticketConsume now id =>
    cases c <;> simp at h
    obtain ⟨_,rfl⟩ := h
    exact hw
  case overflow => exact r.elim

end Operations

section Rules

variable {ι : Type} [DecidableEq ι] {lib : Library} {ok : Op → World ι → Choice → Prop} {i : ι}
  {α β : Type} {w : World ι}

theorem solo_plain {p : Server α} {Q : α → World ι → Prop} (hp : Plainly p)
    (hQ : ∀ a w', Untouched w w' → Q a w') : Solo lib ok i p Q w := by
  refine Machine.wlp_mono _ hQ (Machine.wlp_uses (I := Untouched w) ?_ hp ⟨rfl,rfl,rfl⟩)
  intro o v c r v' ho hv hx
  exact untouched_trans hv (execute_plain ho hx)

theorem solo_plain_bind {p : Server α} {f : α → Server β} {Q : β → World ι → Prop} (hp : Plainly p)
    (hf : ∀ a w', Untouched w w' → Solo lib ok i (f a) Q w') : Solo lib ok i (p >>= f) Q w :=
  solo_bind (solo_plain hp hf)

structure StoreKept (i : ι) (w w' : World ι) : Prop where
  store : w'.node.store = w.node.store
  storeDir : w'.node.storeDir = w.node.storeDir
  closed : w.node.desc i = none → w'.node.desc i = none

theorem solo_idle {p : Server α} {Q : α → World ι → Prop} (hp : Idle p)
    (hQ : ∀ a w', StoreKept i w w' → Q a w') : Solo lib ok i p Q w := by
  refine Machine.wlp_mono _ hQ (Machine.wlp_uses (I := StoreKept i w) ?_ hp ⟨rfl,rfl,fun h => h⟩)
  intro o v c r v' ho hv hx
  obtain ⟨hstore,hdir,-,-⟩ := execute_idle ho hx
  exact ⟨hstore.trans hv.store,hdir.trans hv.storeDir,fun h => execute_closed ho (hv.closed h) hx⟩

theorem solo_idle_bind {p : Server α} {f : α → Server β} {Q : β → World ι → Prop} (hp : Idle p)
    (hf : ∀ a w', StoreKept i w w' → Solo lib ok i (f a) Q w') : Solo lib ok i (p >>= f) Q w :=
  solo_bind (solo_idle hp hf)

end Rules

section Commands

variable {ι : Type} [DecidableEq ι] {lib : Library} {ok : Op → World ι → Choice → Prop} {i : ι}
  {w : World ι} {ctx : ClientContext} {data : Text}

/-- The files of the store that have not been unlinked since are as they were. -/
structure Trimmed (w w' : World ι) : Prop where
  storeDir : w'.node.storeDir = w.node.storeDir
  files : ∃ gone, w'.node.unlinked = w.node.unlinked ++ gone ∧ ∀ path,
    w'.node.store.read path = if path ∈ gone then none else w.node.store.read path

omit [DecidableEq ι] in
theorem trimmed_refl (w : World ι) : Trimmed w w := ⟨rfl,[],by simp,by simp⟩

theorem unlink_read (s : Inodes Text Content) (path p : Text) :
    (s.unlink path).read p = if p = path then none else s.read p := by
  by_cases hp : p = path
  · simp [Inodes.unlink,Inodes.read,hp]
  · simp [Inodes.unlink,Inodes.read,hp]

/-- A command other than `touch` takes away what it unlinks. -/
theorem solo_trimmed {cmdType : CmdType} (hc : cmdType ≠ .touch) :
    Solo lib ok i (dispatchControlCommand ctx cmdType data) (fun _ => Trimmed w) w := by
  refine Machine.wlp_uses (I := Trimmed w) ?_ (dispatch_licensed ctx cmdType data) (trimmed_refl w)
  intro o v c r v' ho hv hx
  have hidle : o.idle = true → (∀ path, o ≠ .unlink path) → Trimmed w v' := by
    intro hi hu
    obtain ⟨hstore,hdir,-,-⟩ := execute_idle hi hx
    obtain ⟨gone,hgone,hread⟩ := hv.files
    refine ⟨hdir.trans hv.storeDir,gone,(execute_unlinked hu hx).trans hgone,fun path => ?_⟩
    rw [hstore]
    exact hread path
  cases ho with
  | plain _ hp =>
    have hi : o.idle = true := by cases o <;> first | rfl | exact hp
    refine hidle hi ?_
    rintro path rfl
    cases hi
  | unlink path =>
    rcases execute_unlink hx with ⟨-,rfl⟩ | ⟨-,rfl⟩
    · obtain ⟨gone,hgone,hread⟩ := hv.files
      refine ⟨hv.storeDir,gone ++ [path],?_,fun p => ?_⟩
      · simp [World.setNode,hgone]
      · simp only [World.setNode,unlink_read,hread,List.mem_append,List.mem_singleton]
        by_cases hp : p = path <;> by_cases hg : p ∈ gone <;> simp [hp,hg]
    · exact hv
  | openEmpty | createFileNode | enter | takeBack => exact absurd rfl hc
  | insertUser | createNode | deleteNode | release | deleteDir =>
    refine hidle rfl ?_
    rintro path hu
    cases hu

/-- `touch` changes the tables only once there is an empty file for them. -/
structure Emptied (w w' : World ι) : Prop where
  storeDir : w'.node.storeDir = w.node.storeDir
  files : (w'.db = w.db ∧ w'.node.store = w.node.store) ∨ w'.node.store =
    (w.node.store.openOrCreate (storePath w.node.storeDir emptyFileSha256) []).2

omit [DecidableEq ι] in
theorem emptied_after {w₁ w₂ : World ι} (h : Untouched w w₁) (h' : Emptied w₁ w₂) :
    Emptied w w₂ := by
  refine ⟨h'.storeDir.trans h.storeDir,?_⟩
  rcases h'.files with ⟨hdb,hs⟩ | hs
  · exact .inl ⟨hdb.trans h.db,hs.trans h.store⟩
  · rw [h.store,h.storeDir] at hs
    exact .inr hs

theorem solo_createEmptyFile_store (ctx : ClientContext) (path fileName : Text) :
    Solo lib ok i (createEmptyFileNode ctx path fileName) (fun _ => Emptied w) w := by
  have hdone : ∀ p : Server Bool, Idle p → ∀ w₁ : World ι, w₁.node.storeDir = w.node.storeDir →
      w₁.node.store = (w.node.store.openOrCreate (storePath w.node.storeDir emptyFileSha256) []).2 →
      Solo lib ok i p (fun _ => Emptied w) w₁ := by
    intro p hp w₁ hdir hs
    exact solo_idle hp fun _ w' h => ⟨h.storeDir.trans hdir,.inr (h.store.trans hs)⟩
  have hsame : ∀ w₁ : World ι, Untouched w w₁ → Emptied w w₁ :=
    fun w₁ h => ⟨h.storeDir,.inl ⟨h.db,h.store⟩⟩
  have hreuse : ∀ id, Idle (reuseEmptyFile ctx path fileName id) := fun id =>
    reuseEmptyFile_uses (fun o => o.idle = true) (fun _ _ => rfl) (fun _ => rfl) id
  unfold createEmptyFileNode ensureEmptyStoreFileExists buildStoreFilePath
  rw [Program.bind_bind,Program.bind_bind]
  intro c r w₁ _ hx
  obtain ⟨hr,rfl⟩ := execute_storeDir hx
  rcases hr with rfl | rfl
  · simp only [Program.bind,Program.pure_eq,Program.ret_bind]
    cases hb : bounded maxPathLen (w₁.node.storeDir ++ '/'::emptyFileSha256) with
    | none => exact hsame w₁ ⟨rfl,rfl,rfl⟩
    | some realPath =>
      obtain ⟨rfl,-⟩ := bounded_eq_some.mp hb
      intro c r w₂ _ hx₂
      rcases execute_openEmpty hx₂ with ⟨rfl,rfl⟩ | ⟨rfl,rfl⟩
      · refine hdone _ (idle_bind (idle_pure true) fun done => ?_) _ rfl rfl
        cases done with
        | false => trivial
        | true =>
          refine idle_bind (idle_sql _) fun r => ?_
          rcases r with _ | ⟨fileId,size⟩
          · refine idle_bind (fileInsert_uses (fun o => o.idle = true) (fun _ _ => rfl) _ _) fun r => ?_
            cases r with
            | none =>
              refine idle_bind (idle_sql _) fun r => ?_
              rcases r with _ | ⟨fileId,size⟩
              · trivial
              · exact hreuse fileId
            | some fileId =>
              refine idle_bind (idle_sql _) fun done => ?_
              cases (done : Bool) with
              | false => exact idle_bind (idle_sql _) fun _ => trivial
              | true => trivial
          · exact hreuse fileId
      · exact hsame w₂ ⟨rfl,rfl,rfl⟩
  · exact hsame w₁ ⟨rfl,rfl,rfl⟩

theorem solo_emptied (ctx : ClientContext) (data : Text) :
    Solo lib ok i (handleTouch ctx data) (fun _ => Emptied w) w := by
  have hsend : ∀ msg (w₁ : World ι), Emptied w w₁ →
      Solo lib ok i (sendMsg msg) (fun _ => Emptied w) w₁ := by
    intro msg w₁ h
    refine solo_plain (plain_sendMsg msg) fun _ w' h' => ⟨h'.storeDir.trans h.storeDir,?_⟩
    rw [h'.db,h'.store]
    exact h.files
  have hrefl : ∀ {w₁ : World ι}, Untouched w w₁ → Emptied w w₁ :=
    fun h => ⟨h.storeDir,.inl ⟨h.db,h.store⟩⟩
  unfold handleTouch
  split
  · exact hsend _ _ (hrefl ⟨rfl,rfl,rfl⟩)
  refine solo_plain_bind (plain_strcpy _ _) fun path w₁ h₁ => ?_
  refine solo_plain_bind (plain_strcpy _ _) fun fileName w₂ h₂ => ?_
  have h₂ := untouched_trans h₁ h₂
  split
  · refine solo_plain_bind (plain_getNodeByPath _ _) fun r w₃ h₃ => ?_
    have h₃ := untouched_trans h₂ h₃
    cases r with
    | some node => exact hsend _ _ (hrefl h₃)
    | none =>
      refine solo_bind (Machine.wlp_mono _ ?_ (solo_createEmptyFile_store ctx path fileName))
      intro done w₄ h₄
      cases done <;> exact hsend _ _ (emptied_after h₃ h₄)
  · exact hsend _ _ (hrefl h₂)

end Commands

end WindCloud
