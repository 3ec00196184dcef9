import WindCloud.Server.StoreFiles
import WindCloud.Server.UploadTables

/-!
# What an upload does to the store

With nothing else running an upload finds the row of its hash, and then the
file is complete and stays as it is, or it runs under the outline of interleaved
uploads and closes what it has opened. Either way every store file is a
beginning of its content again, and that of a row all of it.
-/

set_option autoImplicit false

namespace WindCloud
open CString Effect Function

/-- Mapping, positioning and writing a file do not fail, nor does cutting it
shorter. -/
def Steady {ι : Type} (i : ι) (o : Op) (w : World ι) (c : Choice) : Prop :=
  match o with
  | .mmap _ | .lseek _ | .write _ => c ≠ .fault
  | .ftruncate size => ∀ d, w.node.desc i = some d →
      size < (w.node.store.data d.inode).length → c ≠ .fault
  | _ => True

/-- No file operation between the extension and the end of an upload fails. -/
def FilesHold {ι : Type} (i : ι) (ok : Op → World ι → Choice → Prop) : Prop :=
  ∀ o w c, ok o w c → Steady i o w c

/-- No row names the hash the peer has declared. -/
def Unrowed {ι : Type} (i : ι) (w : World ι) : Prop :=
  ∀ r ∈ w.db.files, Hex.hexLower r.sha256sum ≠ (w.node.conn i).hello.hash

/-- The size of a file is changed only while no row names its hash. -/
def CutsUnrowed {ι : Type} (i : ι) (o : Op) (w : World ι) : Prop :=
  match o with
  | .ftruncate _ => Unrowed i w
  | _ => True

theorem steady_careful {o : Op} {w : World Unit} {c : Choice} (h : Steady () o w c)
    (hu : CutsUnrowed () o w) : Careful () o w c := by
  cases o with
  | fstat => exact .inr fun d _ j d' hj => absurd (Subsingleton.elim j ()) hj
  | ftruncate size =>
    exact fun d hd hs => ⟨h d hd hs,fun j d' hj => absurd (Subsingleton.elim j ()) hj,hu⟩
  | mmap size => exact h
  | lseek pos => exact h
  | write buf => exact h
  | _ => trivial

section Closing

variable {ι : Type} [DecidableEq ι] {lib : Library} {ok : Op → World ι → Choice → Prop} {i : ι}
  {α β : Type} {ctx : ClientContext} {arg fullPath fileName : Text} {packet : FilePacket}

abbrev Shuts (lib : Library) (ok : Op → World ι → Choice → Prop) (i : ι) (p : Server α) : Prop :=
  ∀ w, Solo lib ok i p (fun _ w' => w'.node.desc i = none) w

theorem shuts_bind {p : Server α} {f : α → Server β} (hf : ∀ a, Shuts lib ok i (f a)) :
    Shuts lib ok i (p >>= f) :=
  fun w => solo_bind (Machine.wlp_mono w (fun a w' _ => hf a w') (Machine.wlp_true p w))

theorem shuts_close : Shuts lib ok i close := by
  intro w c r w' _ hx
  rw [execute_close hx]
  exact update_self i none w.node.desc

theorem shuts_refuse (msg : Text) : Shuts lib ok i (sendMsg msg >>= fun _ => close) :=
  shuts_bind fun _ => shuts_close

theorem shuts_completeUpload : Shuts lib ok i (completeUpload ctx fullPath fileName packet) := by
  refine shuts_bind fun done => ?_
  cases done <;> exact shuts_refuse _

theorem shuts_endUpload (localSize : ℤ) (k : ℕ) :
    Shuts lib ok i (endUpload ctx fullPath fileName packet localSize k) := by
  unfold endUpload
  split
  · exact shuts_bind fun _ => shuts_refuse _
  · exact shuts_completeUpload

theorem shuts_receiveContent (localSize : ℤ) :
    Shuts lib ok i (receiveContent ctx fullPath fileName packet localSize) := by
  unfold receiveContent
  split
  · refine shuts_bind fun done => ?_
    cases (done : Bool) with
    | false => exact shuts_refuse _
    | true => exact shuts_bind fun k => shuts_endUpload localSize k
  · refine shuts_bind fun done => ?_
    cases (done : Bool) with
    | false => exact shuts_refuse _
    | true =>
      refine shuts_bind fun k => ?_
      cases k with
      | none => exact shuts_refuse _
      | some k => exact shuts_endUpload localSize k

theorem shuts_resumeUpload (localSize : ℤ) :
    Shuts lib ok i (resumeUpload ctx arg fullPath fileName packet localSize) := by
  refine shuts_bind fun done => ?_
  cases (done : Bool) with
  | false => exact shuts_close
  | true =>
    rw [if_pos rfl]
    split
    · exact shuts_completeUpload
    refine shuts_bind fun done => ?_
    cases (done : Bool) with
    | false => exact shuts_refuse _
    | true =>
      rw [if_pos rfl]
      split
      · exact shuts_completeUpload
      · exact shuts_receiveContent localSize

variable {w : World ι}

theorem solo_stays_closed {p : Server α} (hp : Idle p) (hw : w.node.desc i = none) :
    Solo lib ok i p (fun _ w' => w'.node.desc i = none) w :=
  solo_idle hp fun _ _ h => h.closed hw

theorem solo_upload_closed (hw : w.node.desc i = none) :
    Solo lib ok i (uploadContent ctx arg fullPath fileName packet)
      (fun _ w' => w'.node.desc i = none) w := by
  refine solo_idle_bind (buildStoreFilePath_uses (fun o => o.idle = true) rfl _) fun r w₁ h₁ => ?_
  have hw₁ := h₁.closed hw
  cases r with
  | none => exact solo_stays_closed (idle_sendMsg _) hw₁
  | some realPath =>
    intro c r w₂ _ hx
    rcases execute_openUpload hx with ⟨rfl,rfl⟩ | ⟨rfl,rfl⟩
    · refine shuts_bind (p := perform .fstat) (fun st => ?_) _
      split
      · exact shuts_bind fun _ => shuts_resumeUpload 0
      · exact shuts_resumeUpload _
    · exact solo_stays_closed (idle_sendMsg _) hw₁

theorem solo_puts_closed (ctx : ClientContext) (arg : Text) (hw : w.node.desc i = none) :
    Solo lib ok i (handlePuts ctx arg) (fun _ w' => w'.node.desc i = none) w := by
  have hidle : ∀ {p : Server Unit} {w₁ : World ι}, Idle p → w₁.node.desc i = none →
      Solo lib ok i p (fun _ w' => w'.node.desc i = none) w₁ :=
    fun hp hw₁ => solo_stays_closed hp hw₁
  refine solo_idle_bind (idle_perform rfl) fun r w₁ h₁ => ?_
  have hw₁ := h₁.closed hw
  rcases (r : Option FilePacket) with _ | packet
  · exact hidle (idle_sendMsg _) hw₁
  dsimp only
  split
  · exact hidle (idle_sendMsg _) hw₁
  refine solo_idle_bind (idle_strcpy _ _) fun fileName w₂ h₂ => ?_
  have hw₂ := h₂.closed hw₁
  split
  · refine solo_idle_bind (idle_getNodeByPath _ _) fun r w₃ h₃ => ?_
    have hw₃ := h₃.closed hw₂
    cases r with
    | some node => exact hidle (idle_bind (idle_perform rfl) fun _ => idle_sendMsg _) hw₃
    | none =>
      dsimp only
      split
      · exact hidle (idle_sendMsg _) hw₃
      refine solo_idle_bind (idle_sql _) fun r w₄ h₄ => ?_
      have hw₄ := h₄.closed hw₃
      rcases r with _ | ⟨id,size⟩
      · exact solo_upload_closed hw₄
      refine solo_idle_bind (idle_checkStoreFileReady _ _) fun r w₅ h₅ => ?_
      have hw₅ := h₅.closed hw₄
      rcases r with _ | _ | _
      · exact hidle (idle_sendMsg _) hw₅
      · exact solo_upload_closed hw₅
      · exact hidle (idle_instantUpload _ _ _ _ _ _) hw₅
  · exact hidle (idle_sendMsg _) hw₂

end Closing

section Guards

variable {ι : Type} [DecidableEq ι] {lib : Library} {ok : Op → World ι → Choice → Prop} {i : ι}
  {α β : Type} {ctx : ClientContext} {arg fullPath fileName : Text} {packet : FilePacket}
  {w : World ι}

/-- Started without a row of the hash, the program changes no file's size once
there is one. -/
abbrev CutsEarly (lib : Library) (ok : Op → World ι → Choice → Prop) (i : ι) (p : Server α)
    (w : World ι) : Prop :=
  (server ι lib).guarded ok i (CutsUnrowed i) p (fun _ _ => True) w

def Op.entryless : Op → Bool
  | .sql t => t.reads
  | _ => true

theorem execute_unrowed {o : Op} {r : o.Res} {w' : World ι} {c : Choice} (ho : o.entryless = true)
    (hw : Unrowed i w) (h : execute lib o i w c = some (r,w')) : Unrowed i w' := by
  have hdb : w'.db = w.db := by
    by_cases hs : o.isSql = false
    · exact execute_db hs h
    · cases o <;> simp only [Op.isSql,not_true] at hs
      rename_i t
      exact (execute_plain (o := .sql t) ho h).db
  rw [Unrowed,hdb,(execute_announced h).2]
  exact hw

theorem early_before {p : Server α} {f : α → Server β} (hp : p.Uses fun o => o.entryless = true)
    (hw : Unrowed i w) (hf : ∀ a w', Unrowed i w' → CutsEarly lib ok i (f a) w') :
    CutsEarly lib ok i (p >>= f) w := by
  refine Machine.guarded_bind w (Machine.guarded_mono w (fun a w' => hf a w') ?_)
  refine Machine.guarded_uses (I := Unrowed i) (fun o v _ hv => ?_) ?_ hp hw
  · cases o <;> first | exact hv | trivial
  · intro o v c r v' ho hv _ hx
    exact execute_unrowed ho hv hx

theorem early_idle {p : Server α} (hp : Idle p) : CutsEarly lib ok i p w := by
  refine Machine.guarded_mono w (fun _ _ _ => trivial)
    (Machine.guarded_uses (I := fun _ => True) (fun o v ho _ => ?_) (fun _ _ _ _ _ _ _ _ _ => trivial)
      hp trivial)
  cases o <;> trivial

theorem hushed_entryless (o : Op) (ho : o.hushed = true) : o.entryless = true := by
  cases o <;> first | rfl | cases ho

theorem plain_entryless (o : Op) (ho : o.plain = true) : o.entryless = true := by
  cases o <;> first | rfl | exact ho

theorem early_uploadContent (hw : Unrowed i w) :
    CutsEarly lib ok i (uploadContent ctx arg fullPath fileName packet) w := by
  refine upload_walk (P := fun p => ∀ w, Unrowed i w → CutsEarly lib ok i p w) ?_ ?_ ?_ ?_ w hw
  · intro α p f hp hf w hw
    exact early_before (Program.uses_mono hushed_entryless hp) hw fun a w' h => hf a w' h
  · intro msg _
    exact ⟨fun w _ => early_idle (idle_sendMsg msg),
      fun w _ => early_idle (idle_bind (idle_sendMsg msg) fun _ => idle_close)⟩
  · exact fun w _ => early_idle idle_close
  · exact fun w _ => early_idle (idle_completeUpload _ _ _ _)

theorem early_handlePuts (ctx : ClientContext) (arg : Text) (hw : Unrowed i w) :
    CutsEarly lib ok i (handlePuts ctx arg) w := by
  have hplain : ∀ {α : Type} {p : Server α}, Plainly p → p.Uses fun o => o.entryless = true :=
    fun hp => Program.uses_mono plain_entryless hp
  refine early_before ⟨rfl,fun _ => trivial⟩ hw fun r w₁ hw₁ => ?_
  rcases (r : Option FilePacket) with _ | packet
  · exact early_idle (idle_sendMsg _)
  dsimp only
  split
  · exact early_idle (idle_sendMsg _)
  refine early_before (hplain (plain_strcpy _ _)) hw₁ fun fileName w₂ hw₂ => ?_
  split
  · refine early_before (hplain (plain_getNodeByPath _ _)) hw₂ fun r w₃ hw₃ => ?_
    cases r with
    | some node => exact early_idle (idle_bind (idle_perform rfl) fun _ => idle_sendMsg _)
    | none =>
      dsimp only
      split
      · exact early_idle (idle_sendMsg _)
      refine early_before (hplain (plain_sql rfl)) hw₃ fun r w₄ hw₄ => ?_
      rcases (r : Option (ℕ × ℤ)) with _ | ⟨id,size⟩
      · exact early_uploadContent hw₄
      refine early_before (checkStoreFileReady_uses (fun o => o.entryless = true) rfl
        (fun _ => rfl) _ _) hw₄ fun r w₅ hw₅ => ?_
      rcases r with _ | _ | _
      · exact early_idle (idle_sendMsg _)
      · exact early_uploadContent hw₅
      · exact early_idle (idle_instantUpload _ _ _ _ _ _)
  · exact early_idle (idle_sendMsg _)

end Guards

section Wholeness

variable {ι : Type} [DecidableEq ι] {lib : Library} {ok : Op → World ι → Choice → Prop} {i : ι}
  {content : Text → Content} {β : Type} {w w' : World ι}

omit [DecidableEq ι] in
theorem whole_tables (h : Whole content w) (hstore : w'.node.store = w.node.store)
    (hdir : w'.node.storeDir = w.node.storeDir) (hrows : ∀ x ∈ w'.db.files,
      ∃ y ∈ w.db.files, y.sha256sum = x.sha256sum ∧ y.size = x.size) : Whole content w' where
  begun hash f hf := by
    rw [hstore,hdir] at hf
    exact h.begun hash f hf
  full x hx := by
    obtain ⟨y,hy,hsum,-⟩ := hrows x hx
    rw [hstore,hdir,← hsum]
    exact h.full y hy
  sizes x hx := by
    obtain ⟨y,hy,hsum,hsize⟩ := hrows x hx
    rw [← hsum,← hsize]
    exact h.sizes y hy

theorem link_files {db : Db} {userId : ℤ} {path : Text} {parentId : ℕ} {fileName : Text}
    {bs : List ℕ} {size : ℤ} {x : FileRow}
    (hx : x ∈ (db.link userId path parentId fileName bs size).files) :
    (∃ y ∈ db.files, y.sha256sum = x.sha256sum ∧ y.size = x.size) ∨
      (db.fileOf bs = none ∧ x.sha256sum = bs ∧ x.size = size) := by
  unfold Db.link at hx
  cases hf : db.fileOf bs with
  | some r =>
    rw [hf] at hx
    obtain ⟨y,hy,rfl⟩ := List.mem_map.mp hx
    refine .inl ⟨y,hy,?_⟩
    split <;> exact ⟨rfl,rfl⟩
  | none =>
    rw [hf] at hx
    rcases List.mem_append.mp hx with hx | hx
    · exact .inl ⟨x,hx,rfl,rfl⟩
    · obtain rfl := List.mem_singleton.mp hx
      exact .inr ⟨rfl,rfl,rfl⟩

theorem uploaded_files {db db' : Db} {ctx : ClientContext} {arg : Text} {bs : List ℕ} {size : ℤ}
    (h : Uploaded db ctx arg bs size db') {x : FileRow} (hx : x ∈ db'.files) :
    (∃ y ∈ db.files, y.sha256sum = x.sha256sum ∧ y.size = x.size) ∨
      (db.fileOf bs = none ∧ x.sha256sum = bs ∧ x.size = size) := by
  cases h with
  | kept => exact .inl ⟨x,hx,rfl,rfl⟩
  | linked => exact link_files hx
  | registered =>
    rw [putSource_files] at hx
    exact link_files hx

theorem solo_checkReady {h : Text} {size : ℤ} {c : Content} {f : Option Bool → Server β}
    {Q : β → World ι → Prop} (hfile : w.node.store.read (storePath w.node.storeDir h) = some c)
    (hsize : size = c.length) (hnone : Solo lib ok i (f none) Q w)
    (htrue : Solo lib ok i (f (some true)) Q w) :
    Solo lib ok i (checkStoreFileReady h size >>= f) Q w := by
  unfold checkStoreFileReady buildStoreFilePath
  rw [Program.bind_bind,Program.bind_bind]
  intro ch r w₁ _ hx
  obtain ⟨hr,rfl⟩ := execute_storeDir hx
  rcases hr with rfl | rfl
  · simp only [Program.bind,Program.pure_eq,Program.ret_bind]
    cases hb : bounded maxPathLen (w₁.node.storeDir ++ '/'::h) with
    | none => exact hnone
    | some realPath =>
      obtain ⟨rfl,-⟩ := bounded_eq_some.mp hb
      intro ch r w₂ _ hx₂
      obtain ⟨rfl,hr⟩ := execute_stat hx₂
      rcases hr with rfl | ⟨rfl,hread⟩ | ⟨f',rfl,hread⟩
      · exact hnone
      · exact absurd (hfile.symm.trans hread) (Option.some_ne_none c)
      · obtain rfl := Option.some.inj (hfile.symm.trans hread)
        have hready : some true = some (decide ((c.length : ℤ) = size)) := by
          rw [decide_eq_true hsize.symm]
        rw [hready] at htrue
        exact htrue
  · exact hnone

/-- An upload whose hash has a row leaves the store alone. -/
theorem solo_known_store (hok : StatementsHold ok) (hw : Whole content w) {bs : List ℕ}
    {row : FileRow} (hh : Hex.IsHash (w.node.conn i).hello.hash)
    (hb : Hex.unhex (w.node.conn i).hello.hash = some bs) (hr : w.db.fileOf bs = some row)
    (ctx : ClientContext) (arg : Text) :
    Solo lib ok i (handlePuts ctx arg)
      (fun _ w' => w'.node.store = w.node.store ∧ w'.node.storeDir = w.node.storeDir) w := by
  have hidle : ∀ {p : Server Unit} {w₁ : World ι}, Idle p → Untouched w w₁ → Solo lib ok i p
      (fun _ w' => w'.node.store = w.node.store ∧ w'.node.storeDir = w.node.storeDir) w₁ :=
    fun hp h => solo_idle hp fun _ w' h' =>
      ⟨h'.store.trans h.store,h'.storeDir.trans h.storeDir⟩
  intro c r w₁ _ hx
  obtain ⟨hpacket,rfl⟩ := execute_recvFile hx
  have h₁ : Untouched w₁ w₁ := ⟨rfl,rfl,rfl⟩
  rcases hpacket with rfl | rfl
  · generalize (w₁.node.conn i).hello = packet at *
    dsimp only
    cases buildFullVirtualPath fullPathLen ctx arg with
    | none => exact hidle (idle_sendMsg _) h₁
    | some fullPath =>
      change Solo lib ok i (extractFileName 256 fullPath >>= _) _ w₁
      refine solo_plain_bind (plain_strcpy _ _) fun fileName w₂ h₂ => ?_
      split
      · refine solo_plain_bind (plain_getNodeByPath _ _) fun r w₃ h₃ => ?_
        have h₃ := untouched_trans h₂ h₃
        cases r with
        | some node => exact hidle (idle_bind (idle_perform rfl) fun _ => idle_sendMsg _) h₃
        | none =>
          dsimp only
          split
          · exact hidle (idle_sendMsg _) h₃
          refine solo_findHash hok hh hb ?_
          obtain ⟨hmem,hsum⟩ := fileOf_some hr
          have hhash : Hex.hexLower row.sha256sum = packet.hash := by
            obtain ⟨bs',hb',-,hl⟩ := Hex.unhex_hash hh
            obtain rfl : bs' = bs := Option.some.inj (hb'.symm.trans hb)
            rw [hsum,hl]
          have hfull := hw.full row hmem
          have hsize := hw.sizes row hmem
          rw [hhash] at hfull hsize
          rw [h₃.db,hr]
          rw [← h₃.store,← h₃.storeDir] at hfull
          refine solo_checkReady hfull hsize ?_ ?_
          · exact hidle (idle_sendMsg _) h₃
          · exact hidle (idle_instantUpload _ _ _ _ _ _) h₃
      · exact hidle (idle_sendMsg _) h₂
  · exact hidle (idle_sendMsg _) h₁

end Wholeness

section Alone

variable {lib : Library} {ok : Op → World Unit → Choice → Prop} {content : Text → Content}
  {w : World Unit}

def Honest.uploads {ι : Type} {p : Connection} (h : Honest content p) (storeDir : Text) :
    Uploads ι where
  content := content
  storeDir := storeDir
  hello := fun _ => p.hello
  hash := fun _ => h.hash
  size := fun _ => h.size

theorem sound_whole {U : Uploads Unit} {Λ : Unit → Stage} (h : Sound U Λ w)
    (hd : w.node.desc () = none) (hsize : ∀ r ∈ w.db.files,
      r.size = (U.content (Hex.hexLower r.sha256sum)).length) : Whole U.content w where
  begun hash f hf := by
    rw [h.storeDir] at hf
    obtain ⟨n,hn,rfl⟩ := Option.map_eq_some_iff.mp hf
    refine h.whole hash n hn fun j d hj => ?_
    rw [hd] at hj
    cases hj
  full r hr := by
    obtain ⟨n,hn,hc⟩ := h.rows r hr
    rw [h.storeDir,Inodes.read_eq hn,hc]
  sizes := hsize

theorem whole_sound (h : Whole content w) (hc : Honest content (w.node.conn ()))
    (hsent : (w.node.conn ()).sent = []) (hd : w.node.desc () = none) :
    Sound (hc.uploads w.node.storeDir) (fun _ => .idle) w where
  storeDir := rfl
  hello := fun _ => rfl
  answer := fun _ q => hc.answer q
  desc := by
    intro i d hi
    rw [hd] at hi
    cases hi
  whole := fun hash n hn _ => h.begun hash _ (Inodes.read_eq hn)
  full := by
    rintro hash n hn ⟨j,d,hj,-⟩
    rw [hd] at hj
    cases hj
  rows := by
    intro r hr
    obtain ⟨n,hn,hc⟩ := Option.map_eq_some_iff.mp (h.full r hr)
    exact ⟨n,hn,hc⟩
  told := by
    intro i ht
    rw [Told,hsent] at ht
    simp at ht
  stages := fun _ => hd

/-- Every upload of an honest peer keeps the store whole, however it ends. -/
theorem solo_puts_whole (hok : StatementsHold ok) (hfiles : FilesHold () ok) (hk : w.db.Keyed)
    (hw : Whole content w) (hc : Honest content (w.node.conn ()))
    (hsent : (w.node.conn ()).sent = []) (hd : w.node.desc () = none) (ctx : ClientContext)
    (arg : Text) : Solo lib ok () (handlePuts ctx arg) (fun _ => Whole content) w := by
  obtain ⟨bs,hb,-,hl⟩ := Hex.unhex_hash hc.hash
  have htables : Solo lib ok () (handlePuts ctx arg) (fun _ w' =>
      Uploaded w.db ctx arg bs (w.node.conn ()).hello.fileSize w'.db ∧
        w'.node.unlinked = w.node.unlinked ∧ w'.node.storeDir = w.node.storeDir) w :=
    uploading_puts hok hc.hash hb ctx arg
  cases hf : w.db.fileOf bs with
  | some row =>
    refine Machine.wlp_mono _ ?_ (Machine.wlp_and _
      (solo_known_store hok hw hc.hash hb hf ctx arg) htables)
    rintro _ w' ⟨⟨hstore,hdir⟩,hup,-⟩
    refine whole_tables hw hstore hdir fun x hx => ?_
    rcases uploaded_files hup hx with hold | ⟨hnone,-⟩
    · exact hold
    · exact absurd (hf.symm.trans hnone) (Option.some_ne_none row)
  | none =>
    have hu : Unrowed () w := by
      intro r hr he
      refine fileOf_none.mp hf r hr (Hex.hexLower_injective (hk.cells r hr).2 ?_ (he.trans hl.symm))
      exact fun b hm => Hex.unhex_lt hb b hm
    have hsound : Solo lib ok () (handlePuts ctx arg) (fun _ w' => ∃ ℓ,
        Sound (hc.uploads w.node.storeDir) (update (fun _ => .idle) () ℓ) w' ∧ True) w := by
      have hcareful : (server Unit lib).wlp (Careful ()) () (handlePuts ctx arg) (fun _ w' => ∃ ℓ,
          Sound (hc.uploads w.node.storeDir) (update (fun _ => .idle) () ℓ) w' ∧ True) w :=
        outline_wlp (staged_handlePuts ctx arg) (whole_sound hw hc hsent hd)
      refine Machine.wlp_guarded (early_handlePuts ctx arg hu) (Machine.wlp_permitted ?_ hcareful)
      exact fun o v c h => steady_careful (hfiles o v c h.1) h.2
    refine Machine.wlp_mono _ ?_ (Machine.wlp_and _ hsound (Machine.wlp_and _
      (solo_puts_closed ctx arg hd) htables))
    rintro _ w' ⟨⟨ℓ,hs,-⟩,hclosed,hup,-⟩
    refine sound_whole hs hclosed fun x hx => ?_
    rcases uploaded_files hup hx with ⟨y,hy,hsum,hsize⟩ | ⟨-,hsum,hsize⟩
    · rw [← hsum,← hsize]
      exact hw.sizes y hy
    · rw [hsum,hsize,hl]
      exact hc.size

end Alone

end WindCloud
