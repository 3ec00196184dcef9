import WindCloud.Server.UploadSafety

/-!
# The outline of an upload

Every operation of `handle_puts` leads from its stage to a next one under the
invariant of interleaved uploads, as long as the steps are careful.
-/

set_option autoImplicit false

namespace WindCloud
open CString Effect Function Buffer

section Outlines

variable {ι : Type} [DecidableEq ι] (lib : Library) (U : Uploads ι) (i : ι) {α β : Type}

abbrev Staged (p : Server α) (Q : Stage → α → Prop) (s : Stage) : Prop :=
  Outline (server ι lib) Careful (Sound U) i p Q s

variable {lib U i} {Q : Stage → α → Prop} {s : Stage}

theorem staged_op {o : Op} {f : o.Res → Server α}
    (h : ∀ Λ w c r w', Λ i = s → Sound U Λ w → Careful i o w c →
      execute lib o i w c = some (r,w') →
      ∃ s', Sound U (update Λ i s') w' ∧ Staged lib U i (f r) Q s') :
    Staged lib U i (perform o >>= f) Q s := h

theorem staged_quiet {o : Op} {f : o.Res → Server α} (ho : o.quiet = true)
    (hf : ∀ r, Staged lib U i (f r) Q s) : Staged lib U i (perform o >>= f) Q s :=
  outline_frame (fun _ _ _ _ _ _ hi _ hx => by rw [execute_quiet ho hx]; exact hi) hf

theorem sound_sql {Λ : ι → Stage} {w w' : World ι} {t : Statement} {r : t.Res} {c : Choice}
    (hi : Sound U Λ w) (ht : t.keepsHashes = true)
    (hx : execute lib (.sql t) i w c = some (r,w')) : Sound U Λ w' := by
  rcases execute_sql hx with ⟨_,db,he,rfl⟩ | ⟨_,_,rfl⟩
  · have hk := Statement.exec_keepsHashes ht w.db
    rw [he] at hk
    have hold : ∀ r ∈ w.db.files, ∃ r' ∈ db.files, r'.sha256sum = r.sha256sum := by
      intro r hr
      have hm : r.sha256sum ∈ db.files.map (·.sha256sum) := by
        rw [hk]
        exact List.mem_map_of_mem hr
      simpa using hm
    have hnew : ∀ r ∈ db.files, ∃ r' ∈ w.db.files, r.sha256sum = r'.sha256sum := by
      intro r hr
      have hm : r.sha256sum ∈ w.db.files.map (·.sha256sum) := by
        rw [← hk]
        exact List.mem_map_of_mem hr
      obtain ⟨r',hr',he'⟩ := List.mem_map.mp hm
      exact ⟨r',hr',he'.symm⟩
    have hs := sound_tables (i := i) hi hold (fun r hr => .inl (hnew r hr))
      (holds_kept (hi.stages i) rfl rfl hold fun d _ => kept_refl _ _)
    rwa [update_eq_self] at hs
  · exact hi

theorem staged_sql {t : Statement} {f : t.Res → Server α} (ht : t.keepsHashes = true)
    (hf : ∀ r, Staged lib U i (f r) Q s) : Staged lib U i (sql t >>= f) Q s :=
  outline_frame (fun _ _ _ _ _ _ hi _ hx => sound_sql hi ht hx) hf

theorem staged_sql_last {t : Statement} {Q : Stage → t.Res → Prop} (ht : t.keepsHashes = true)
    (hQ : ∀ r, Q s r) : Staged lib U i (sql t) Q s :=
  outline_frame (fun _ _ _ _ _ _ hi _ hx => sound_sql hi ht hx) hQ

theorem staged_bind {p : Server α} {f : α → Server β} {Q : Stage → β → Prop}
    {R : Stage → α → Prop} (hp : Staged lib U i p R s)
    (hf : ∀ s' a, R s' a → Staged lib U i (f a) Q s') : Staged lib U i (p >>= f) Q s :=
  outline_bind (outline_mono hf hp)

omit [DecidableEq ι] in
theorem hash_ne_nil : (U.hello i).hash ≠ [] := by
  intro h
  have hl := (U.hash i).length
  simp [h] at hl

theorem staged_send {p : Packet} {f : Bool → Server α}
    (hp : (p = completeReply ∨ ∃ q, p = .file q ∧ q.hash = (U.hello i).hash) →
      s = .stored ∨ s = .known)
    (hs : s = .idle ∨ s = .known ∨ s = .stored ∨ ∃ t d, p = .command t d)
    (hf : ∀ r, Staged lib U i (f r) Q s) : Staged lib U i (perform (.send p) >>= f) Q s := by
  refine staged_op fun Λ w c r w' hl hi _ hx => ?_
  rcases execute_send hx with ⟨_,rfl,rfl⟩ | ⟨_,rfl,rfl⟩
  · refine ⟨s,sound_deliver hi (fun h => ?_) ?_,hf _⟩
    · have hst := hi.stages i
      rw [hl] at hst
      rcases hp h with rfl | rfl
      · exact hst
      · exact hst.2
    · have hst := hi.stages i
      rw [hl] at hst
      rcases hs with rfl | rfl | rfl | ⟨t,d,rfl⟩
      · exact hst
      · exact hst
      · exact hst
      · exact holds_kept hst rfl (by simp [World.setNode,Node.deliver,Node.setConn])
          (fun r hr => ⟨r,hr,rfl⟩) fun d _ => kept_refl _ _
  · exact ⟨s,hl ▸ (update_eq_self i Λ).symm ▸ hi,hf _⟩

theorem staged_sendMsg {msg : Text} {Q : Stage → Unit → Prop}
    (hm : initCommandPacket .reply msg ≠ completeReply) (hQ : Q s ()) :
    Staged lib U i (sendMsg msg) Q s :=
  staged_send (fun h => by rcases h with h | ⟨q,h,_⟩; exacts [absurd h hm,by cases h])
    (.inr (.inr (.inr ⟨_,_,rfl⟩))) fun _ => hQ

/-- A stage in which the file is complete whenever it holds. -/
def Filled (U : Uploads ι) (i : ι) (s : Stage) : Prop :=
  ∀ Λ w, Sound U Λ w → Λ i = s →
    ∃ d, w.node.desc i = some d ∧ w.node.store.data d.inode = U.own i

/-- A stage in which closing leaves no file extended and incomplete. -/
def Closable (U : Uploads ι) (i : ι) (s : Stage) : Prop :=
  ∀ Λ w, Sound U Λ w → Λ i = s → ∀ d, w.node.desc i = some d → d.extended = true →
    w.node.store.data d.inode = U.own i

omit [DecidableEq ι] in
theorem filled_closable (h : Filled U i s) : Closable U i s := by
  intro Λ w hi hl d hd _
  obtain ⟨d',hd',hc⟩ := h Λ w hi hl
  obtain rfl := Option.some.inj (hd'.symm.trans hd)
  exact hc

omit [DecidableEq ι] in
theorem stored_closable : Closable U i .stored := by
  intro Λ w hi hl d hd _
  have hst := hi.stages i
  rw [hl] at hst
  exact data_row hi hd hst

omit [DecidableEq ι] in
theorem greeted_closable (p : ℕ) : Closable U i (.greeted p) := by
  intro Λ w hi hl d hd hx
  have hst := hi.stages i
  rw [hl] at hst
  obtain ⟨_,d',hd',he,_⟩ := hst
  obtain rfl := Option.some.inj (hd'.symm.trans hd)
  simp [he] at hx

omit [DecidableEq ι] in
theorem sized_closable (p : ℕ) : Closable U i (.sized p) := by
  intro Λ w hi hl d hd hx
  have hst := hi.stages i
  rw [hl] at hst
  obtain ⟨d',hd',he,_⟩ := hst
  obtain rfl := Option.some.inj (hd'.symm.trans hd)
  simp [he] at hx

omit [DecidableEq ι] in
theorem opened_closable : Closable U i .opened := by
  intro Λ w hi hl d hd hx
  have hst := hi.stages i
  rw [hl] at hst
  obtain ⟨d',hd',he⟩ := hst
  obtain rfl := Option.some.inj (hd'.symm.trans hd)
  simp [he] at hx

omit [DecidableEq ι] in
theorem data_filled {Λ : ι → Stage} {w : World ι} (hi : Sound U Λ w) {d : Descriptor}
    (hd : w.node.desc i = some d)
    (ha : Agrees (w.node.store.data d.inode) (U.own i) (U.own i).length)
    (hp : (U.own i).length ≤ (w.node.store.data d.inode).length) :
    w.node.store.data d.inode = U.own i :=
  agrees_eq ha (le_antisymm (data_le hi hd) hp)

omit [DecidableEq ι] in
theorem greeted_filled : Filled U i (.greeted (U.own i).length) := by
  intro Λ w hi hl
  have hst := hi.stages i
  rw [hl] at hst
  obtain ⟨_,d,hd,_,ha,hp⟩ := hst
  exact ⟨d,hd,data_filled hi hd ha hp⟩

theorem staged_close {Q : Stage → Unit → Prop} (hs : Closable U i s) (hQ : Q .idle ()) :
    Staged lib U i close Q s := by
  refine staged_op (f := .ret) fun Λ w c r w' hl hi _ hx => ?_
  rw [execute_close hx]
  exact ⟨.idle,sound_close hi (hs Λ w hi hl),hQ⟩

theorem staged_find {f : Option (ℕ × ℤ) → Server α} {t : Stage}
    (hs : s = .idle ∧ t = .known ∨ t = .stored) (hnone : Staged lib U i (f none) Q s)
    (hsome : ∀ id size, Staged lib U i (f (some (id,size))) Q t) :
    Staged lib U i (daoFileFindBySha256 (U.hello i).hash >>= f) Q s := by
  refine staged_op (o := .sql (.fileBySha256 (U.hello i).hash)) fun Λ w c r w' hl hi _ hx => ?_
  have hkeep : Sound U (update Λ i s) w := hl ▸ (update_eq_self i Λ).symm ▸ hi
  rcases execute_sql hx with ⟨_,db,he,rfl⟩ | ⟨_,rfl,rfl⟩
  · obtain ⟨bs,_,hbs,hf⟩ := Statement.exec_fileBySha256 (U.hash i) w.db
    rw [hf] at he
    obtain ⟨rfl,rfl⟩ := Prod.mk.inj he
    cases hr : w.db.fileOf bs with
    | none => exact ⟨s,hkeep,hnone⟩
    | some row =>
      obtain ⟨hm,hb⟩ := fileOf_some hr
      have hrow : ∃ r ∈ w.db.files, Hex.hexLower r.sha256sum = (U.hello i).hash :=
        ⟨row,hm,by rw [hb,hbs]⟩
      refine ⟨t,sound_stage hi ?_,hsome _ _⟩
      have hst := hi.stages i
      rw [hl] at hst
      rcases hs with ⟨rfl,rfl⟩ | rfl
      · exact ⟨hst,hrow⟩
      · exact hrow
  · exact ⟨s,hkeep,hnone⟩

theorem staged_insertFile {f : Bool → Server α} (hs : Filled U i s) (size : ℤ)
    (hfalse : Staged lib U i (f false) Q s) (htrue : Staged lib U i (f true) Q .stored) :
    Staged lib U i (sql (.insertFile (U.hello i).hash size) >>= f) Q s := by
  refine staged_op (o := .sql (.insertFile (U.hello i).hash size))
    fun Λ w c r w' hl hi _ hx => ?_
  have hkeep : Sound U (update Λ i s) w := hl ▸ (update_eq_self i Λ).symm ▸ hi
  rcases execute_sql hx with ⟨_,db,he,rfl⟩ | ⟨_,rfl,rfl⟩
  · obtain ⟨bs,_,hbs,hf⟩ := Statement.exec_insertFile (U.hash i) w.db size
    rw [hf] at he
    split at he
    · obtain ⟨rfl,rfl⟩ := Prod.mk.inj he
      exact ⟨s,hkeep,hfalse⟩
    · obtain ⟨rfl,rfl⟩ := Prod.mk.inj he
      obtain ⟨d,hd,hc⟩ := hs Λ w hi hl
      refine ⟨.stored,sound_tables hi (fun r hr => ⟨r,by simp [hr],rfl⟩) ?_ ?_,htrue⟩
      · intro r hr
        rcases List.mem_append.mp hr with hr | hr
        · exact .inl ⟨r,hr,rfl⟩
        · obtain rfl := List.mem_singleton.mp hr
          exact .inr ⟨hbs,d,hd,hc⟩
      · exact ⟨⟨w.db.nextFile,bs,size,1⟩,by simp,hbs⟩
  · exact ⟨s,hkeep,hfalse⟩

theorem staged_getCurrentServerAddress (m n : ℕ) {Q : Stage → Option (Text × Text) → Prop}
    (hQ : ∀ r, Q s r) : Staged lib U i (getCurrentServerAddress m n) Q s := by
  unfold getCurrentServerAddress
  refine staged_quiet rfl fun address => ?_
  dsimp only
  split
  · exact hQ _
  · exact hQ _

theorem staged_registerSource (fileId : ℕ) {Q : Stage → Bool → Prop} (hQ : ∀ r, Q s r) :
    Staged lib U i (registerSource fileId) Q s := by
  refine staged_bind (R := fun s' _ => s' = s) (staged_getCurrentServerAddress _ _ fun _ => rfl) ?_
  rintro _ (_ | ⟨ip,port⟩) rfl
  · exact hQ false
  · unfold daoFileSourceUpsert
    dsimp only
    split
    · exact hQ false
    · exact staged_sql_last rfl hQ

theorem staged_createUserFileLink (ctx : ClientContext) (fullPath fileName : Text)
    (fileId : ℕ) (needAddRef : Bool) {Q : Stage → Bool → Prop} (hQ : ∀ r, Q s r) :
    Staged lib U i (createUserFileLink ctx fullPath fileName fileId needAddRef) Q s := by
  refine staged_sql rfl fun created => ?_
  cases created with
  | false => exact hQ false
  | true =>
    cases needAddRef with
    | false => exact hQ true
    | true => exact staged_sql_last rfl hQ

theorem staged_linkUpload (ctx : ClientContext) (fullPath fileName : Text)
    (fileId : ℕ) (needAddRef : Bool) {Q : Stage → Bool → Prop} (hQ : ∀ r, Q s r) :
    Staged lib U i (linkUpload ctx fullPath fileName fileId needAddRef) Q s := by
  refine staged_bind (R := fun s' _ => s' = s) (staged_createUserFileLink _ _ _ _ _ fun _ => rfl) ?_
  rintro _ created rfl
  cases created with
  | false => exact hQ false
  | true => exact staged_registerSource fileId hQ

/-- The database work of a complete upload; where it succeeds there is a row. -/
theorem staged_finishUploadDbWork (ctx : ClientContext) (fullPath fileName : Text) (size : ℤ)
    (hs : Filled U i s) :
    Staged lib U i (finishUploadDbWork ctx fullPath fileName (U.hello i).hash size)
      (fun s' r => s' = .stored ∨ s' = s ∧ r = false) s := by
  refine staged_bind (R := fun s' r => s' = .stored ∨ s' = s ∧ r = none) ?_ ?_
  · refine staged_insertFile hs size (.inr ⟨rfl,rfl⟩) ?_
    refine staged_find (t := .stored) (.inr rfl) (.inl rfl) fun id size' => .inl rfl
  · rintro t (_ | id) ht
    · refine staged_find (t := .stored) (.inr rfl) ?_ fun id size' => ?_
      · rcases ht with rfl | ⟨rfl,_⟩
        · exact .inl rfl
        · exact .inr ⟨rfl,rfl⟩
      · exact staged_linkUpload ctx fullPath fileName id true fun _ => .inl rfl
    · rcases ht with rfl | ⟨_,h⟩
      · exact staged_linkUpload ctx fullPath fileName id false fun _ => .inl rfl
      · cases h

theorem completeReply_ne {msg : Text} (h : msg ≠ "上传完成！".toList) (hl : msg.length < 256) :
    initCommandPacket .reply msg ≠ completeReply := by
  intro he
  have ht : msg.take 255 = "上传完成！".toList.take 255 := by
    simpa [completeReply,initCommandPacket,cmdDataLen] using he
  rw [List.take_of_length_le (by omega)] at ht
  exact h (ht.trans (by decide))

theorem staged_reply {msg : Text} {p : Server α} (h : msg ≠ "上传完成！".toList)
    (hl : msg.length < 256) (hp : Staged lib U i p Q s) :
    Staged lib U i (sendMsg msg >>= fun _ => p) Q s :=
  staged_bind (R := fun s' _ => s' = s) (staged_sendMsg (completeReply_ne h hl) rfl)
    (by rintro _ _ rfl; exact hp)

theorem staged_completeUpload (ctx : ClientContext) (fullPath fileName : Text)
    (hs : Filled U i s) :
    Staged lib U i (completeUpload ctx fullPath fileName (U.hello i)) (fun _ _ => True) s := by
  refine staged_bind (staged_finishUploadDbWork ctx fullPath fileName _ hs) ?_
  rintro t done ht
  have hc : Closable U i t := by
    rcases ht with rfl | ⟨rfl,_⟩
    · exact stored_closable
    · exact filled_closable hs
  cases done with
  | false => exact staged_reply (by decide) (by decide) (staged_close hc trivial)
  | true =>
    obtain rfl : t = .stored := by simpa using ht
    refine staged_bind (R := fun s' _ => s' = .stored)
      (staged_send (fun _ => .inl rfl) (.inr (.inr (.inl rfl))) fun _ => rfl) ?_
    rintro _ _ rfl
    exact staged_close stored_closable trivial

/-- What a stage in which the file has its full size says at position `p`. -/
def Reached (U : Uploads ι) (i : ι) (p : ℕ) (s : Stage) : Prop :=
  ∀ Λ w, Sound U Λ w → Λ i = s → ∃ d, w.node.desc i = some d ∧
    Agrees (w.node.store.data d.inode) (U.own i) p ∧
    p ≤ (w.node.store.data d.inode).length ∧
    (w.node.store.data d.inode).length = (U.own i).length

omit [DecidableEq ι] in
theorem mapped_reached (p : ℕ) : Reached U i p (.mapped p) := by
  intro Λ w hi hl
  have hst := hi.stages i
  rw [hl] at hst
  exact hst.2

omit [DecidableEq ι] in
theorem buffered_reached (p q : ℕ) : Reached U i p (.buffered p q) := by
  intro Λ w hi hl
  have hst := hi.stages i
  rw [hl] at hst
  obtain ⟨_,d,hd,_,hr⟩ := hst
  exact ⟨d,hd,hr⟩

omit [DecidableEq ι] in
theorem reached_filled (h : Reached U i (U.own i).length s) : Filled U i s := by
  intro Λ w hi hl
  obtain ⟨d,hd,ha,hp,_⟩ := h Λ w hi hl
  exact ⟨d,hd,data_filled hi hd ha hp⟩

theorem resize_extended (n : Node ι) (d : Descriptor) (size : ℕ) :
    ∃ d', (n.resize i d size).desc = update n.desc i (some d') ∧ d'.inode = d.inode ∧
      (d'.extended = true ↔ (n.store.data d.inode).length < size ∨
        (n.store.data d.inode).length = size ∧ d.extended = true) := by
  refine ⟨_,rfl,rfl,?_⟩
  by_cases h1 : (n.store.data d.inode).length < size
  · simp [h1]
  by_cases h2 : size < (n.store.data d.inode).length
  · have h3 : (n.store.data d.inode).length ≠ size := by omega
    simp [h1,h2,h3]
  · have h3 : (n.store.data d.inode).length = size := by omega
    simp [h3]

theorem staged_cut {f : Bool → Server α} {p : ℕ} (hs : Reached U i p s)
    (hp : p < (U.own i).length) (hf : Staged lib U i (f true) Q .opened) :
    Staged lib U i (perform (.ftruncate p) >>= f) Q s := by
  refine staged_op (o := .ftruncate p) fun Λ w c r w' hl hi hc hx => ?_
  obtain ⟨d,hd,ha,hp',hlen⟩ := hs Λ w hi hl
  obtain ⟨hfault,halone,hrow⟩ := hc d hd (by omega)
  have hun : Unextended w i d := fun j d' hj hdj he => absurd he (halone j d' hj hdj)
  rcases execute_ftruncate hx with ⟨d',hd',_,_,rfl,rfl⟩ | ⟨_,hneg,_⟩ | ⟨hbad,_⟩
  · obtain rfl := Option.some.inj (hd'.symm.trans hd)
    obtain ⟨e,he,hei,hex⟩ := resize_extended (i := i) w.node d' p
    have hno : e.extended = false := by
      by_contra hne
      have := hex.mp (by simpa using hne)
      omega
    refine ⟨.opened,sound_edit (g := resize '\x00' (w.node.store.data d'.inode) p)
      hi hd hei rfl rfl rfl he (fun _ _ => rfl) rfl rfl rfl ?_ ?_ ?_ ?_ ?_,hf⟩
    · rintro ⟨r,hr,hh⟩
      exact absurd (hh.trans (by rw [hi.hello])) (hrow r hr)
    · exact fun hna => absurd halone hna
    · exact fun _ _ => cut_prefix '\x00' ha hp'
    · rintro (h | h)
      · simp [hno] at h
      · exact absurd hun h
    · exact ⟨e,by rw [setNode_node]; exact (congrFun he i).trans (update_self _ _ _),hno⟩
  · omega
  · exact absurd hbad hfault

theorem staged_endUpload (ctx : ClientContext) (fullPath fileName : Text) {p n : ℕ}
    (hs : Reached U i (p+n) s) (hp : p+n ≤ (U.own i).length) :
    Staged lib U i (endUpload ctx fullPath fileName (U.hello i) p n) (fun _ _ => True) s := by
  have hsize : (U.hello i).fileSize = ((U.own i).length : ℤ) := U.size i
  unfold endUpload
  by_cases hn : p+n = (U.own i).length
  · rw [if_neg (by omega)]
    exact staged_completeUpload ctx fullPath fileName (reached_filled (hn ▸ hs))
  · rw [if_pos (by omega)]
    refine staged_cut (p := p+n) hs (by omega) ?_
    exact staged_reply (by decide) (by decide) (staged_close opened_closable trivial)

theorem sound_fill {Λ : ι → Stage} {w w' : World ι} (hi : Sound U Λ w) {d e : Descriptor}
    {p : ℕ} {b : Content} {t : Stage} (hd : w.node.desc i = some d)
    (hlen : (w.node.store.data d.inode).length = (U.own i).length)
    (hp : p ≤ (U.own i).length) (hbs : b <+: (U.own i).drop p)
    (hinode : e.inode = d.inode) (hex : e.extended = d.extended) (hdb : w'.db = w.db)
    (hdir : w'.node.storeDir = w.node.storeDir)
    (hstore : w'.node.store =
      w.node.store.modify d.inode (splice '\x00' (w.node.store.data d.inode) p b))
    (hdesc : w'.node.desc = update w.node.desc i (some e))
    (hother : ∀ j, j ≠ i → w'.node.conn j = w.node.conn j)
    (hhello : (w'.node.conn i).hello = (w.node.conn i).hello)
    (hanswer : (w'.node.conn i).answer = (w.node.conn i).answer)
    (hsent : (w'.node.conn i).sent = (w.node.conn i).sent)
    (hs : t.Holds U w' i) : Sound U (update Λ i t) w' := by
  have hfit : p+b.length ≤ (U.own i).length := by
    have hl := hbs.length_le
    rw [List.length_drop] at hl
    omega
  have hsize : (splice '\x00' (w.node.store.data d.inode) p b).length = (U.own i).length := by
    rw [splice_length]
    omega
  have hsame : w.node.store.data d.inode = U.own i →
      splice '\x00' (w.node.store.data d.inode) p b = U.own i := by
    intro he
    exact agrees_eq (agrees_splice '\x00' (by omega) hbs (by rw [he]; exact fun _ _ => rfl)) hsize
  refine sound_edit hi hd hinode hdb hdir hstore hdesc hother hhello hanswer hsent ?_ ?_ ?_ ?_ hs
  · exact fun hr => hsame (data_row hi hd hr)
  · intro _
    refine ⟨fun q ha hq => ⟨agrees_splice '\x00' (by omega) hbs ha,by omega⟩,fun _ => hsize⟩
  · intro hx hu
    have hpre := hi.whole _ _ (hi.desc i d hd) fun j dj hj hin => by
      by_cases hji : j = i
      · subst hji
        obtain rfl := Option.some.inj (hj.symm.trans hd)
        exact hex.symm.trans hx
      · exact hu j dj hji hj hin
    rw [hsame (hpre.eq_of_length hlen)]
  · exact fun _ => hsize

theorem staged_recvMapped {f : ℕ → Server α} {p : ℕ} {once : ℤ} (hp : p ≤ (U.own i).length)
    (hnone : Staged lib U i (f 0) Q (.mapped p))
    (hsome : ∀ r, r ≠ 0 → p+r ≤ (U.own i).length → Staged lib U i (f r) Q (.mapped (p+r))) :
    Staged lib U i (perform (.recvMapped p once) >>= f) Q (.mapped p) := by
  refine staged_op (o := .recvMapped p once) fun Λ w c r w' hl hi _ hx => ?_
  have hst := hi.stages i
  rw [hl] at hst
  obtain ⟨hstream,d,hd,ha,hpl,hlen⟩ := hst
  rcases execute_recvMapped hx with ⟨d',hd',hr,_,hrs,rfl⟩ | ⟨_,rfl,rfl⟩
  · obtain rfl := Option.some.inj (hd'.symm.trans hd)
    rw [hstream,List.length_drop] at hrs
    have hbs : (w.node.conn i).stream.take r <+: (U.own i).drop p := by
      rw [hstream]
      exact List.take_prefix r _
    have hbl : ((w.node.conn i).stream.take r).length = r := by
      rw [hstream,List.length_take,List.length_drop]
      omega
    have hpatch : patch (w.node.store.data d'.inode) p ((w.node.conn i).stream.take r) =
        splice '\x00' (w.node.store.data d'.inode) p ((w.node.conn i).stream.take r) :=
      patch_eq_splice _ _ _ _ (by omega)
    refine ⟨.mapped (p+r),sound_fill (e := d') hi hd hlen hp hbs rfl rfl rfl rfl ?_ ?_ ?_ ?_ ?_ ?_ ?_,
      hsome r (by omega) (by omega)⟩
    · simp [World.setNode,Node.consume,Node.patch,Node.setConn,hpatch]
    · simp [World.setNode,Node.consume,Node.patch,Node.setConn,← hd]
    · intro j hj
      simp [World.setNode,Node.consume,Node.patch,Node.setConn,hj]
    · simp [World.setNode,Node.consume,Node.patch,Node.setConn]
    · simp [World.setNode,Node.consume,Node.patch,Node.setConn]
    · simp [World.setNode,Node.consume,Node.patch,Node.setConn]
    · have hext := agrees_splice_extend '\x00' hpl hbs ha
      rw [hbl] at hext
      refine ⟨?_,d',?_,?_,?_,?_⟩
      · simp [World.setNode,Node.consume,Node.patch,Node.setConn,hstream,List.drop_drop]
      · simpa [World.setNode,Node.consume,Node.patch,Node.setConn] using hd
      · simpa [World.setNode,Node.consume,Node.patch,Node.setConn,hpatch] using hext
      · simp only [World.setNode,Node.consume,Node.patch,Node.setConn,Int.toNat_natCast,hpatch,
          Inodes.modify_data,update_self,splice_length]
        omega
      · simp only [World.setNode,Node.consume,Node.patch,Node.setConn,Int.toNat_natCast,hpatch,
          Inodes.modify_data,update_self,splice_length]
        omega
  · exact ⟨.mapped p,hl ▸ (update_eq_self i Λ).symm ▸ hi,hnone⟩

theorem staged_receiveMapped (p : ℕ) (remaining : ℤ) (passes n : ℕ)
    (hp : p+n ≤ (U.own i).length) :
    Staged lib U i (receiveMapped p remaining passes n)
      (fun s' r => s' = .mapped (p+r) ∧ p+r ≤ (U.own i).length) (.mapped (p+n)) := by
  induction passes generalizing n with
  | zero => exact ⟨rfl,hp⟩
  | succ passes ih =>
    unfold receiveMapped
    split
    · refine staged_recvMapped (p := p+n) hp ?_ fun r hr hpr => ?_
      · exact ⟨rfl,hp⟩
      · rw [if_neg hr,Nat.add_assoc]
        exact ih (n+r) (by omega)
    · exact ⟨rfl,hp⟩

theorem staged_lseek {f : Bool → Server α} {p : ℕ}
    (hf : Staged lib U i (f true) Q (.buffered p p)) :
    Staged lib U i (perform (.lseek p) >>= f) Q (.mapped p) := by
  refine staged_op (o := .lseek p) fun Λ w c r w' hl hi hc hx => ?_
  have hst := hi.stages i
  rw [hl] at hst
  obtain ⟨hstream,d,hd,ha,hpl,hlen⟩ := hst
  rcases execute_lseek hx with ⟨d',hd',_,_,rfl,rfl⟩ | ⟨_,hneg,_⟩ | ⟨hbad,_⟩
  · obtain rfl := Option.some.inj (hd'.symm.trans hd)
    refine ⟨.buffered p p,?_,hf⟩
    refine sound_fill (p := 0) (b := []) (e := { d' with pos := p }) hi hd hlen (by omega)
      List.nil_prefix rfl rfl rfl rfl ?_ rfl (fun _ _ => rfl) rfl rfl rfl ?_
    · have hsame : splice '\x00' (w.node.store.data d'.inode) 0 [] =
          w.node.store.data d'.inode := by simp [splice,resize]
      rw [hsame]
      simp [World.setNode,Node.setDesc,Inodes.modify]
    · exact ⟨hstream,{ d' with pos := p },by simp [World.setNode,Node.setDesc],rfl,ha,hpl,hlen⟩
  · omega
  · exact absurd hbad hc

theorem staged_recv {f : Content → Server α} {p : ℕ} {once : ℤ}
    (hnone : Staged lib U i (f []) Q (.buffered p p))
    (hsome : ∀ bs, bs ≠ [] → bs <+: (U.own i).drop p →
      Staged lib U i (f bs) Q (.buffered p (p+bs.length))) :
    Staged lib U i (perform (.recv once) >>= f) Q (.buffered p p) := by
  refine staged_op (o := .recv once) fun Λ w c r w' hl hi _ hx => ?_
  have hst := hi.stages i
  rw [hl] at hst
  obtain ⟨hstream,d,hd,hpos,ha,hpl,hlen⟩ := hst
  rcases execute_recv hx with ⟨n,hn,_,hns,rfl,rfl⟩ | ⟨_,rfl,rfl⟩
  · have hbl : ((w.node.conn i).stream.take n).length = n := List.length_take_of_le hns
    have hne : (w.node.conn i).stream.take n ≠ [] := by
      intro he
      simp [he] at hbl
      omega
    have hbs : (w.node.conn i).stream.take n <+: (U.own i).drop p := by
      rw [← hstream]
      exact List.take_prefix n _
    refine ⟨.buffered p (p+((w.node.conn i).stream.take n).length),?_,hsome _ hne hbs⟩
    refine sound_fill (p := 0) (b := []) (e := d) hi hd hlen (by omega) List.nil_prefix rfl rfl
      rfl rfl ?_ ?_ ?_ ?_ ?_ ?_ ?_
    · simp [World.setNode,Node.consume,Node.setConn,Inodes.modify,splice,resize]
    · simp [World.setNode,Node.consume,Node.setConn,← hd]
    · intro j hj
      simp [World.setNode,Node.consume,Node.setConn,hj]
    · simp [World.setNode,Node.consume,Node.setConn]
    · simp [World.setNode,Node.consume,Node.setConn]
    · simp [World.setNode,Node.consume,Node.setConn]
    · refine ⟨?_,d,hd,hpos,ha,hpl,hlen⟩
      rw [hbl]
      simp [World.setNode,Node.consume,Node.setConn,hstream,List.drop_drop]
  · exact ⟨.buffered p p,hl ▸ (update_eq_self i Λ).symm ▸ hi,hnone⟩

theorem staged_write {f : ℕ → Server α} {p q : ℕ} {buf : Content} (hp : p ≤ (U.own i).length)
    (hbuf : buf <+: (U.own i).drop p)
    (hf : ∀ r, 0 < r → r ≤ buf.length → Staged lib U i (f r) Q (.buffered (p+r) q)) :
    Staged lib U i (perform (.write buf) >>= f) Q (.buffered p q) := by
  refine staged_op (o := .write buf) fun Λ w c r w' hl hi hc hx => ?_
  have hst := hi.stages i
  rw [hl] at hst
  obtain ⟨hstream,d,hd,hpos,ha,hpl,hlen⟩ := hst
  rcases execute_write hx with ⟨d',hd',hr,hrl,rfl⟩ | ⟨hbad,_⟩
  · obtain rfl := Option.some.inj (hd'.symm.trans hd)
    have hbs : buf.take r <+: (U.own i).drop p := (List.take_prefix r buf).trans hbuf
    have hbl : (buf.take r).length = r := List.length_take_of_le hrl
    have hle := hbs.length_le
    rw [hbl,List.length_drop] at hle
    refine ⟨.buffered (p+r) q,?_,hf r hr hrl⟩
    refine sound_fill (e := { d' with pos := d'.pos+(buf.take r).length }) hi hd hlen hp hbs
      rfl rfl rfl rfl ?_ rfl (fun _ _ => rfl) rfl rfl rfl ?_
    · simp [World.setNode,Node.append,hpos]
    · have hext := agrees_splice_extend '\x00' hpl hbs ha
      rw [hbl] at hext
      refine ⟨hstream,{ d' with pos := d'.pos+(buf.take r).length },?_,?_,?_,?_,?_⟩
      · simp [World.setNode,Node.append]
      · simp only [hbl,hpos]
      · simpa [World.setNode,Node.append,hpos] using hext
      · simp only [World.setNode,Node.append,hpos,Inodes.modify_data,update_self,splice_length]
        omega
      · simp only [World.setNode,Node.append,hpos,Inodes.modify_data,update_self,splice_length]
        omega
  · exact absurd hbad hc

theorem staged_writeFileFull {p q : ℕ} {buf : Content} (hp : p ≤ (U.own i).length)
    (hbuf : buf <+: (U.own i).drop p) (passes total : ℕ) (ht : total ≤ buf.length)
    (hpass : buf.length ≤ total+passes) :
    Staged lib U i (writeFileFull buf passes total)
      (fun s' r => r = true ∧ s' = .buffered (p+buf.length) q) (.buffered (p+total) q) := by
  have hfit := hbuf.length_le
  rw [List.length_drop] at hfit
  induction passes generalizing total with
  | zero =>
    have he : total = buf.length := by omega
    exact ⟨rfl,by rw [he]⟩
  | succ passes ih =>
    unfold writeFileFull
    split
    · rename_i hlt
      have hsub : buf.drop total <+: (U.own i).drop (p+total) := by
        rw [← List.drop_drop]
        exact hbuf.drop total
      have hle : p+total ≤ (U.own i).length := by omega
      refine staged_write hle hsub fun r hr hrl => ?_
      rw [List.length_drop] at hrl
      have hr0 : r ≠ 0 := by omega
      rw [if_neg hr0,Nat.add_assoc]
      exact ih (total+r) (by omega) (by omega)
    · have he : total = buf.length := by omega
      exact ⟨rfl,by rw [he]⟩

theorem staged_receiveBuffered (p : ℕ) (remaining : ℤ) (passes n : ℕ)
    (hp : p+n ≤ (U.own i).length) :
    Staged lib U i (receiveBuffered remaining passes n)
      (fun s' r => ∃ k, r = some k ∧ s' = .buffered (p+k) (p+k) ∧ p+k ≤ (U.own i).length)
      (.buffered (p+n) (p+n)) := by
  induction passes generalizing n with
  | zero => exact ⟨n,rfl,rfl,hp⟩
  | succ passes ih =>
    unfold receiveBuffered
    split
    · refine staged_recv ?_ fun bs hne hbs => ?_
      · exact ⟨n,rfl,rfl,hp⟩
      · have hfit := hbs.length_le
        rw [List.length_drop] at hfit
        rw [if_neg hne]
        refine staged_bind (staged_writeFileFull hp hbs bs.length 0 (by omega) (by omega)) ?_
        rintro _ _ ⟨rfl,rfl⟩
        rw [if_pos rfl,Nat.add_assoc]
        exact ih (n+bs.length) (by omega)
    · exact ⟨n,rfl,rfl,hp⟩

theorem staged_extend {f : Bool → Server α} {p : ℕ}
    (hfalse : Staged lib U i (f false) Q (.greeted p))
    (htrue : Staged lib U i (f true) Q (.mapped p)) :
    Staged lib U i (perform (.ftruncate (U.hello i).fileSize) >>= f) Q (.greeted p) := by
  refine staged_op (o := .ftruncate (U.hello i).fileSize) fun Λ w c r w' hl hi _ hx => ?_
  have hsize : (U.hello i).fileSize = ((U.own i).length : ℤ) := U.size i
  have hst := hi.stages i
  rw [hl] at hst
  obtain ⟨hstream,d,hd,hno,ha,hpl⟩ := hst
  have hle := data_le hi hd
  rcases execute_ftruncate hx with ⟨d',hd',_,_,rfl,rfl⟩ | ⟨_,hneg,_⟩ | ⟨_,rfl,rfl⟩
  · obtain rfl := Option.some.inj (hd'.symm.trans hd)
    have hn : (U.hello i).fileSize.toNat = (U.own i).length := by omega
    rw [hn]
    obtain ⟨e,he,hei,hex⟩ := resize_extended (i := i) w.node d' (U.own i).length
    have hrs : (w.node.store.data d'.inode).length = (U.own i).length →
        resize '\x00' (w.node.store.data d'.inode) (U.own i).length =
          w.node.store.data d'.inode := by
      intro hlen
      rw [resize_shrink _ _ _ (by omega),← hlen,List.take_length]
    refine ⟨.mapped p,sound_edit (g := resize '\x00' (w.node.store.data d'.inode)
      (U.own i).length) hi hd hei rfl rfl rfl he (fun _ _ => rfl) rfl rfl rfl ?_ ?_ ?_ ?_ ?_,htrue⟩
    · intro hr
      have hc := data_row hi hd hr
      rw [hrs (by rw [hc]),hc]
    · intro _
      exact ⟨fun q hq hql => ⟨agrees_resize '\x00' _ hq hql (by omega),
        by rw [resize_length]; omega⟩,fun _ => resize_length _ _ _⟩
    · intro hx' hu
      have hlen : (w.node.store.data d'.inode).length = (U.own i).length := by
        by_contra hne
        have : e.extended = true := hex.mpr (.inl (by omega))
        simp [hx'] at this
      have hpre := hi.whole _ _ (hi.desc i d' hd) fun j dj hj hin => by
        by_cases hji : j = i
        · subst hji
          obtain rfl := Option.some.inj (hj.symm.trans hd)
          exact hno
        · exact hu j dj hji hj hin
      rw [hrs hlen]
      exact hpre
    · exact fun _ => resize_length _ _ _
    · refine ⟨hstream,e,?_,?_,?_,?_⟩
      · exact (congrFun he i).trans (update_self _ _ _)
      · simpa [World.setNode,Node.resize,hei] using
          agrees_resize '\x00' (U.own i).length ha hpl (by omega)
      · simp only [World.setNode,Node.resize,hei,Inodes.modify_data,update_self,resize_length]
        omega
      · simp only [World.setNode,Node.resize,hei,Inodes.modify_data,update_self,resize_length]
  · omega
  · exact ⟨.greeted p,hl ▸ (update_eq_self i Λ).symm ▸ hi,hfalse⟩

theorem staged_greet {f : Bool → Server α} {p : ℕ} (arg : Text) (size : ℤ)
    (hfalse : Staged lib U i (f false) Q (.sized p))
    (htrue : Staged lib U i (f true) Q (.greeted p)) :
    Staged lib U i (sendFilePacket (initFilePacket .puts arg size p none) >>= f) Q (.sized p) := by
  refine staged_op (o := .send (.file (initFilePacket .puts arg size p none)))
    fun Λ w c r w' hl hi _ hx => ?_
  have hst := hi.stages i
  rw [hl] at hst
  rcases execute_send hx with ⟨_,rfl,rfl⟩ | ⟨_,rfl,rfl⟩
  · refine ⟨.greeted p,sound_deliver hi ?_ ⟨?_,hst⟩,htrue⟩
    · rintro (h | ⟨q,h,hq⟩)
      · cases h
      · obtain rfl : initFilePacket .puts arg size p none = q := by simpa using h
        exact absurd hq.symm hash_ne_nil
    · simp [World.setNode,Node.deliver,Node.setConn,hi.answer,initFilePacket]
  · exact ⟨.sized p,hl ▸ (update_eq_self i Λ).symm ▸ hi,hfalse⟩

/-- Reading the size of the file while nobody else has it extended. -/
theorem staged_fstat {f : Option ℤ → Server α} (hnone : Staged lib U i (f none) Q (.sized 0))
    (hsome : ∀ p : ℕ, p ≤ (U.own i).length → Staged lib U i (f (some p)) Q (.sized p)) :
    Staged lib U i (perform .fstat >>= f) Q .opened := by
  refine staged_op (o := .fstat) fun Λ w c r w' hl hi hc hx => ?_
  have hst := hi.stages i
  rw [hl] at hst
  obtain ⟨d,hd,hno⟩ := hst
  obtain ⟨rfl,⟨d',hd',rfl,rfl⟩ | ⟨_,rfl⟩⟩ := execute_fstat hx
  · obtain rfl := Option.some.inj (hd'.symm.trans hd)
    have hu : Unextended w' i d' := by
      rcases hc with hc | hc
      · cases hc
      · exact hc d' hd
    have hpre := hi.whole _ _ (hi.desc i d' hd) fun j dj hj hin => by
      by_cases hji : j = i
      · subst hji
        obtain rfl := Option.some.inj (hj.symm.trans hd)
        exact hno
      · exact hu j dj hji hj hin
    exact ⟨.sized _,sound_stage hi ⟨d',hd,hno,agrees_isPrefix hpre,le_rfl⟩,hsome _ hpre.length_le⟩
  · exact ⟨.sized 0,sound_stage hi ⟨d,hd,hno,agrees_zero _ _,Nat.zero_le _⟩,hnone⟩

theorem staged_receiveContent (ctx : ClientContext) (fullPath fileName : Text) {p : ℕ}
    (hp : p < (U.own i).length) :
    Staged lib U i (receiveContent ctx fullPath fileName (U.hello i) p) (fun _ _ => True)
      (.mapped p) := by
  have hsize : (U.hello i).fileSize = ((U.own i).length : ℤ) := U.size i
  unfold receiveContent
  split
  · refine staged_op (o := .mmap (U.hello i).fileSize) fun Λ w c r w' hl hi hc hx => ?_
    obtain ⟨rfl,⟨_,rfl⟩ | ⟨hbad,_⟩⟩ := execute_mmap hx
    · have hpos : 0 < (U.hello i).fileSize := by omega
      refine ⟨.mapped p,hl ▸ (update_eq_self i Λ).symm ▸ hi,?_⟩
      rw [decide_eq_true hpos,if_pos rfl]
      refine staged_bind (staged_receiveMapped p _ _ 0 (by omega)) ?_
      rintro _ n ⟨rfl,hn⟩
      exact staged_endUpload ctx fullPath fileName (mapped_reached _) hn
    · exact absurd hbad hc
  · refine staged_lseek ?_
    rw [if_pos rfl]
    refine staged_bind (staged_receiveBuffered p _ _ 0 (by omega)) ?_
    rintro _ _ ⟨n,rfl,rfl,hn⟩
    exact staged_endUpload ctx fullPath fileName (buffered_reached _ _) hn

theorem staged_resumeUpload (ctx : ClientContext) (arg fullPath fileName : Text) {p : ℕ}
    (hp : p ≤ (U.own i).length) :
    Staged lib U i (resumeUpload ctx arg fullPath fileName (U.hello i) p) (fun _ _ => True)
      (.sized p) := by
  have hsize : (U.hello i).fileSize = ((U.own i).length : ℤ) := U.size i
  refine staged_greet arg _ ?_ ?_
  · exact staged_close (sized_closable p) trivial
  · rw [if_pos rfl]
    by_cases hpl : p = (U.own i).length
    · rw [if_pos (by omega)]
      exact staged_completeUpload ctx fullPath fileName (hpl ▸ greeted_filled)
    · rw [if_neg (by omega)]
      refine staged_extend ?_ ?_
      · exact staged_reply (by decide) (by decide) (staged_close (greeted_closable p) trivial)
      · rw [if_pos rfl,if_neg (by omega)]
        exact staged_receiveContent ctx fullPath fileName (by omega)

theorem staged_storePath {h : Text} {f : Option Text → Server α}
    (hnone : Staged lib U i (f none) Q s)
    (hsome : Staged lib U i (f (some (storePath U.storeDir h))) Q s) :
    Staged lib U i (buildStoreFilePath h >>= f) Q s := by
  refine staged_op (o := .storeDir) fun Λ w c r w' hl hi _ hx => ?_
  obtain ⟨hr,rfl⟩ := execute_storeDir hx
  refine ⟨s,hl ▸ (update_eq_self i Λ).symm ▸ hi,?_⟩
  rcases hr with rfl | rfl
  · change Staged lib U i (f (bounded maxPathLen (w'.node.storeDir ++ '/'::h))) Q s
    cases hb : bounded maxPathLen (w'.node.storeDir ++ '/'::h) with
    | none => exact hnone
    | some t =>
      obtain ⟨rfl,_⟩ := bounded_eq_some.mp hb
      rw [hi.storeDir]
      exact hsome
  · exact hnone

theorem staged_uploadContent (ctx : ClientContext) (arg fullPath fileName : Text)
    (hs : s = .idle ∨ s = .known) :
    Staged lib U i (uploadContent ctx arg fullPath fileName (U.hello i)) (fun _ _ => True) s := by
  have hsize : (U.hello i).fileSize = ((U.own i).length : ℤ) := U.size i
  refine staged_storePath (staged_sendMsg (completeReply_ne (by decide) (by decide)) trivial) ?_
  refine staged_op (o := .openUpload _) fun Λ w c r w' hl hi _ hx => ?_
  have hst := hi.stages i
  rw [hl] at hst
  have hnone : w.node.desc i = none := by
    rcases hs with rfl | rfl
    · exact hst
    · exact hst.1
  rcases execute_openUpload hx with ⟨rfl,rfl⟩ | ⟨rfl,rfl⟩
  · refine ⟨.opened,sound_open hi hnone rfl,?_⟩
    refine staged_fstat ?_ fun p hp => ?_
    · rw [Option.getD_none,if_neg (by omega)]
      exact staged_resumeUpload ctx arg fullPath fileName (p := 0) (by omega)
    · rw [Option.getD_some,if_neg (by omega)]
      exact staged_resumeUpload ctx arg fullPath fileName hp
  · exact ⟨s,hl ▸ (update_eq_self i Λ).symm ▸ hi,
      staged_sendMsg (completeReply_ne (by decide) (by decide)) trivial⟩

theorem staged_checkStoreFileReady {h : Text} {size : ℤ} {f : Option Bool → Server α}
    (hf : ∀ r, Staged lib U i (f r) Q s) :
    Staged lib U i (checkStoreFileReady h size >>= f) Q s := by
  refine staged_bind (R := fun s' _ => s' = s) ?_ (by rintro _ r rfl; exact hf r)
  refine staged_storePath rfl (staged_quiet rfl fun r => ?_)
  cases r <;> rfl

theorem staged_instantUpload (ctx : ClientContext) (arg fullPath fileName : Text) (id : ℕ) :
    Staged lib U i (instantUpload ctx arg fullPath fileName (U.hello i) id) (fun _ _ => True)
      .known := by
  refine staged_bind (R := fun s' _ => s' = .known)
    (staged_createUserFileLink ctx fullPath fileName id true fun _ => rfl) ?_
  rintro _ created rfl
  cases created with
  | false => exact staged_sendMsg (completeReply_ne (by decide) (by decide)) trivial
  | true => exact staged_send (fun _ => .inr rfl) (.inr (.inl rfl)) fun _ => trivial

theorem staged_storeContent (ctx : ClientContext) (arg fullPath fileName : Text) :
    Staged lib U i (storeContent ctx arg fullPath fileName (U.hello i)) (fun _ _ => True)
      .idle := by
  refine staged_find (.inl ⟨rfl,rfl⟩) (staged_uploadContent ctx arg fullPath fileName (.inl rfl))
    fun id size => ?_
  refine staged_checkStoreFileReady fun ready => ?_
  rcases ready with _ | _ | _
  · exact staged_sendMsg (completeReply_ne (by decide) (by decide)) trivial
  · exact staged_uploadContent ctx arg fullPath fileName (.inr rfl)
  · exact staged_instantUpload ctx arg fullPath fileName id

theorem staged_handlePuts (ctx : ClientContext) (arg : Text) :
    Staged lib U i (handlePuts ctx arg) (fun _ _ => True) .idle := by
  refine staged_op (o := .recvFile) fun Λ w c r w' hl hi _ hx => ?_
  obtain ⟨hr,rfl⟩ := execute_recvFile hx
  refine ⟨.idle,hl ▸ (update_eq_self i Λ).symm ▸ hi,?_⟩
  rw [hi.hello] at hr
  rcases hr with rfl | rfl
  · dsimp only
    cases hb : buildFullVirtualPath fullPathLen ctx arg with
    | none => exact staged_sendMsg (completeReply_ne (by decide) (by decide)) trivial
    | some fullPath =>
      unfold extractFileName strcpy
      dsimp only
      split
      · rw [Program.pure_eq,Program.ret_bind]
        split
        · refine staged_bind (R := fun s' _ => s' = .idle) ?_ ?_
          · unfold daoGetNodeByPath
            split
            · rfl
            · exact staged_sql_last rfl fun _ => rfl
          · rintro _ (_ | node) rfl
            · dsimp only
              rw [if_neg hash_ne_nil]
              exact staged_storeContent ctx arg fullPath _
            · refine staged_send ?_ (.inl rfl) fun _ =>
                staged_sendMsg (completeReply_ne (by decide) (by decide)) trivial
              rintro (h | ⟨q,h,hq⟩)
              · cases h
              · obtain rfl : initFilePacket .puts arg (U.hello i).fileSize
                    (U.hello i).fileSize none = q := by simpa using h
                exact absurd hq.symm hash_ne_nil
        · exact staged_sendMsg (completeReply_ne (by decide) (by decide)) trivial
      · intro Λ w c r _ _ _ _ hx
        exact r.elim
  · exact staged_sendMsg (completeReply_ne (by decide) (by decide)) trivial

end Outlines

end WindCloud
