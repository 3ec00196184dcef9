import WindCloud.Server.Steps
import WindCloud.Server.Tables

/-!
# Concurrent uploads of one content

Any number of uploads run interleaved; uploads of the same content share the
store file named by its hash. Each upload is in a stage which says what it
knows of the file: the size it read, the offset it told its client, and the
position up to which the file agrees with the content.
-/

set_option autoImplicit false

namespace WindCloud
open CString Effect Function Buffer

def storePath (storeDir sha256sum : Text) : Text := storeDir ++ '/'::sha256sum

theorem storePath_injective {d h h' : Text} (he : storePath d h = storePath d h') : h = h' := by
  simpa [storePath] using he

/-- A client that owns the content with the hash it declares, declares its size
and sends it from the offset it is asked for. -/
structure Honest (content : Text → Content) (p : Connection) : Prop where
  hash : Hex.IsHash p.hello.hash
  size : p.hello.fileSize = (content p.hello.hash).length
  answer : ∀ q, p.answer q = (content p.hello.hash).drop q.offset.toNat

def completeReply : Packet := initCommandPacket .reply "上传完成！".toList

/-- The client was told that its upload is complete, or sent the packet of an
instant upload. -/
def Told (p : Connection) : Prop :=
  completeReply ∈ p.sent ∨ ∃ q, Packet.file q ∈ p.sent ∧ q.hash = p.hello.hash

structure Uploads (ι : Type) where
  content : Text → Content
  storeDir : Text
  hello : ι → FilePacket
  hash : ∀ i, Hex.IsHash (hello i).hash
  size : ∀ i, (hello i).fileSize = (content (hello i).hash).length

namespace Uploads

variable {ι : Type} (U : Uploads ι)

def own (i : ι) : Content := U.content (U.hello i).hash

def path (i : ι) : Text := storePath U.storeDir (U.hello i).hash

end Uploads

inductive Stage where
  | idle
  | known
  | opened
  | sized (p : ℕ)
  | greeted (p : ℕ)
  | mapped (p : ℕ)
  | buffered (p q : ℕ)
  | stored

namespace Stage

variable {ι : Type} (U : Uploads ι)

/-- What upload `i` knows in each stage: `p` is the position up to which the
file agrees with the content, `q` the position of the client's stream. -/
def Holds (w : World ι) (i : ι) : Stage → Prop
  | idle => w.node.desc i = none
  | known => w.node.desc i = none ∧
      ∃ r ∈ w.db.files, Hex.hexLower r.sha256sum = (U.hello i).hash
  | opened => ∃ d, w.node.desc i = some d ∧ d.extended = false
  | sized p => ∃ d, w.node.desc i = some d ∧ d.extended = false ∧
      Agrees (w.node.store.data d.inode) (U.own i) p ∧
      p ≤ (w.node.store.data d.inode).length
  | greeted p => (w.node.conn i).stream = (U.own i).drop p ∧ ∃ d, w.node.desc i = some d ∧
      d.extended = false ∧ Agrees (w.node.store.data d.inode) (U.own i) p ∧
      p ≤ (w.node.store.data d.inode).length
  | mapped p => (w.node.conn i).stream = (U.own i).drop p ∧ ∃ d, w.node.desc i = some d ∧
      Agrees (w.node.store.data d.inode) (U.own i) p ∧
      p ≤ (w.node.store.data d.inode).length ∧
      (w.node.store.data d.inode).length = (U.own i).length
  | buffered p q => (w.node.conn i).stream = (U.own i).drop q ∧ ∃ d, w.node.desc i = some d ∧
      d.pos = p ∧ Agrees (w.node.store.data d.inode) (U.own i) p ∧
      p ≤ (w.node.store.data d.inode).length ∧
      (w.node.store.data d.inode).length = (U.own i).length
  | stored => ∃ r ∈ w.db.files, Hex.hexLower r.sha256sum = (U.hello i).hash

end Stage

/-- The invariant of interleaved uploads under their stages. -/
structure Sound {ι : Type} (U : Uploads ι) (Λ : ι → Stage) (w : World ι) : Prop where
  storeDir : w.node.storeDir = U.storeDir
  hello : ∀ i, (w.node.conn i).hello = U.hello i
  answer : ∀ i q, (w.node.conn i).answer q = (U.own i).drop q.offset.toNat
  desc : ∀ i d, w.node.desc i = some d → w.node.store.names (U.path i) = some d.inode
  whole : ∀ h n, w.node.store.names (storePath U.storeDir h) = some n →
    (∀ j d, w.node.desc j = some d → d.inode = n → d.extended = false) →
    w.node.store.data n <+: U.content h
  full : ∀ h n, w.node.store.names (storePath U.storeDir h) = some n →
    (∃ j d, w.node.desc j = some d ∧ d.inode = n ∧ d.extended = true) →
    (w.node.store.data n).length = (U.content h).length
  rows : ∀ r ∈ w.db.files, ∃ n,
    w.node.store.names (storePath U.storeDir (Hex.hexLower r.sha256sum)) = some n ∧
      w.node.store.data n = U.content (Hex.hexLower r.sha256sum)
  told : ∀ i, Told (w.node.conn i) →
    ∃ r ∈ w.db.files, Hex.hexLower r.sha256sum = (U.hello i).hash
  stages : ∀ i, (Λ i).Holds U w i

/-- No other descriptor of the file has made it longer and not cut it since. -/
def Unextended {ι : Type} (w : World ι) (i : ι) (d : Descriptor) : Prop :=
  ∀ j d', j ≠ i → w.node.desc j = some d' → d'.inode = d.inode → d'.extended = false

/-- No other upload has the file of `d` open. -/
def Alone {ι : Type} (w : World ι) (i : ι) (d : Descriptor) : Prop :=
  ∀ j d', j ≠ i → w.node.desc j = some d' → d'.inode ≠ d.inode

/-- The steps under which uploads of one content do not harm each other: the
size of a file is read while no other upload has it extended, a file is cut
while no other upload has it open and no row names its hash, and the file
operations between the extension and the end of the upload do not fail. -/
def Careful {ι : Type} (i : ι) (o : Op) (w : World ι) (c : Choice) : Prop :=
  match o with
  | .fstat => c = .fault ∨ ∀ d, w.node.desc i = some d → Unextended w i d
  | .ftruncate size => ∀ d, w.node.desc i = some d →
      size < (w.node.store.data d.inode).length →
      c ≠ .fault ∧ Alone w i d ∧
        ∀ r ∈ w.db.files, Hex.hexLower r.sha256sum ≠ (w.node.conn i).hello.hash
  | .mmap _ | .lseek _ | .write _ => c ≠ .fault
  | _ => True

/-- What a change of a file must preserve for the other uploads of it. -/
def Kept (f f' c : Content) : Prop :=
  (∀ p, Agrees f c p → p ≤ f.length → Agrees f' c p ∧ p ≤ f'.length) ∧
    (f.length = c.length → f'.length = c.length)

section Edits

variable {ι : Type} {U : Uploads ι} {Λ : ι → Stage} {w w' : World ι} {i : ι}

theorem kept_refl (f c : Content) : Kept f f c := ⟨fun _ ha hp => ⟨ha,hp⟩,fun h => h⟩

theorem holds_kept {s : Stage} (h : s.Holds U w i) (hd : w'.node.desc i = w.node.desc i)
    (hs : (w'.node.conn i).stream = (w.node.conn i).stream)
    (hf : ∀ r ∈ w.db.files, ∃ r' ∈ w'.db.files, r'.sha256sum = r.sha256sum)
    (hk : ∀ d, w.node.desc i = some d →
      Kept (w.node.store.data d.inode) (w'.node.store.data d.inode) (U.own i)) :
    s.Holds U w' i := by
  cases s with
  | idle => exact hd.trans h
  | known =>
    obtain ⟨hn,r,hr,hh⟩ := h
    obtain ⟨r',hr',he⟩ := hf r hr
    exact ⟨hd.trans hn,r',hr',by rw [he]; exact hh⟩
  | opened =>
    obtain ⟨d,hi,he⟩ := h
    exact ⟨d,hd.trans hi,he⟩
  | sized p =>
    obtain ⟨d,hi,hx,ha,hp⟩ := h
    exact ⟨d,hd.trans hi,hx,(hk d hi).1 p ha hp⟩
  | greeted p =>
    obtain ⟨hst,d,hi,hx,ha,hp⟩ := h
    exact ⟨hs.trans hst,d,hd.trans hi,hx,(hk d hi).1 p ha hp⟩
  | mapped p =>
    obtain ⟨hst,d,hi,ha,hp,hl⟩ := h
    obtain ⟨ha',hp'⟩ := (hk d hi).1 p ha hp
    exact ⟨hs.trans hst,d,hd.trans hi,ha',hp',(hk d hi).2 hl⟩
  | buffered p q =>
    obtain ⟨hst,d,hi,hpos,ha,hp,hl⟩ := h
    obtain ⟨ha',hp'⟩ := (hk d hi).1 p ha hp
    exact ⟨hs.trans hst,d,hd.trans hi,hpos,ha',hp',(hk d hi).2 hl⟩
  | stored =>
    obtain ⟨r,hr,hh⟩ := h
    obtain ⟨r',hr',he⟩ := hf r hr
    exact ⟨r',hr',by rw [he]; exact hh⟩

theorem data_le (h : Sound U Λ w) {d : Descriptor} (hd : w.node.desc i = some d) :
    (w.node.store.data d.inode).length ≤ (U.own i).length := by
  have hn := h.desc i d hd
  by_cases he : ∃ j d', w.node.desc j = some d' ∧ d'.inode = d.inode ∧ d'.extended = true
  · exact (h.full _ _ hn he).le
  · have hp := h.whole _ _ hn fun j d' hj hi => by
      by_contra hx
      exact he ⟨j,d',hj,hi,by simpa using hx⟩
    exact hp.length_le

theorem hash_eq (h : Sound U Λ w) {j : ι} {d d' : Descriptor} (hd : w.node.desc i = some d)
    (hd' : w.node.desc j = some d') (he : d'.inode = d.inode) :
    (U.hello j).hash = (U.hello i).hash :=
  storePath_injective (w.node.store.single (he ▸ h.desc j d' hd') (h.desc i d hd))

theorem data_row (h : Sound U Λ w) {d : Descriptor} (hd : w.node.desc i = some d)
    (hr : ∃ r ∈ w.db.files, Hex.hexLower r.sha256sum = (U.hello i).hash) :
    w.node.store.data d.inode = U.own i := by
  obtain ⟨r,hr,hh⟩ := hr
  obtain ⟨n,hn,hc⟩ := h.rows r hr
  rw [hh] at hn hc
  have he : n = d.inode := Option.some.inj (hn.symm.trans (h.desc i d hd))
  rw [← he,hc,Uploads.own]

variable [DecidableEq ι]

/-- A change of an open file and of the descriptor it is made through keeps the
invariant when it respects the row of the file and the other uploads of it. -/
theorem sound_edit (h : Sound U Λ w) {d d' : Descriptor} {g : Content} {s : Stage}
    (hd : w.node.desc i = some d) (hinode : d'.inode = d.inode)
    (hdb : w'.db = w.db) (hdir : w'.node.storeDir = w.node.storeDir)
    (hstore : w'.node.store = w.node.store.modify d.inode g)
    (hdesc : w'.node.desc = update w.node.desc i (some d'))
    (hother : ∀ j, j ≠ i → w'.node.conn j = w.node.conn j)
    (hhello : (w'.node.conn i).hello = (w.node.conn i).hello)
    (hanswer : (w'.node.conn i).answer = (w.node.conn i).answer)
    (hsent : (w'.node.conn i).sent = (w.node.conn i).sent)
    (hrow : (∃ r ∈ w.db.files, Hex.hexLower r.sha256sum = (U.hello i).hash) → g = U.own i)
    (hkeep : ¬ Alone w i d → Kept (w.node.store.data d.inode) g (U.own i))
    (hwhole : d'.extended = false → Unextended w i d → g <+: U.own i)
    (hfull : d'.extended = true ∨ ¬ Unextended w i d → g.length = (U.own i).length)
    (hs : s.Holds U w' i) : Sound U (update Λ i s) w' := by
  have hnames : w'.node.store.names = w.node.store.names := by rw [hstore]; rfl
  have hself : w'.node.store.data d.inode = g := by rw [hstore]; simp
  have hrest : ∀ n, n ≠ d.inode → w'.node.store.data n = w.node.store.data n := by
    intro n hn
    rw [hstore]
    simp [hn]
  have hdi : w'.node.desc i = some d' := by rw [hdesc]; simp
  have hdj : ∀ j, j ≠ i → w'.node.desc j = w.node.desc j := by
    intro j hj
    rw [hdesc]
    simp [hj]
  have hfile : ∀ hash n, w.node.store.names (storePath U.storeDir hash) = some n →
      n = d.inode → hash = (U.hello i).hash := by
    rintro hash n hn rfl
    exact storePath_injective (w.node.store.single hn (h.desc i d hd))
  have hshared : ∀ j dj, j ≠ i → w.node.desc j = some dj → dj.inode = d.inode →
      Kept (w.node.store.data d.inode) g (U.own i) :=
    fun j dj hj hdj' he => hkeep fun ha => ha j dj hj hdj' he
  constructor
  · exact hdir.trans h.storeDir
  · intro j
    by_cases hj : j = i
    · subst hj
      exact hhello.trans (h.hello j)
    · rw [hother j hj]
      exact h.hello j
  · intro j q
    by_cases hj : j = i
    · subst hj
      rw [hanswer]
      exact h.answer j q
    · rw [hother j hj]
      exact h.answer j q
  · intro j dj hj
    rw [hnames]
    by_cases hji : j = i
    · subst hji
      rw [hdi] at hj
      obtain rfl := Option.some.inj hj
      rw [hinode]
      exact h.desc j d hd
    · rw [hdj j hji] at hj
      exact h.desc j dj hj
  · intro hash n hn hx
    rw [hnames] at hn
    by_cases he : n = d.inode
    · have hh := hfile hash n hn he
      subst he
      rw [hself,hh]
      exact hwhole (hx i d' hdi hinode) fun j dj hji hdj' hin =>
        hx j dj (by rw [hdj j hji]; exact hdj') hin
    · rw [hrest n he]
      refine h.whole hash n hn fun j dj hdj' hin => ?_
      by_cases hji : j = i
      · subst hji
        rw [hd] at hdj'
        obtain rfl := Option.some.inj hdj'
        exact absurd hin.symm he
      · exact hx j dj (by rw [hdj j hji]; exact hdj') hin
  · rintro hash n hn ⟨j,dj,hj,hin,hx⟩
    rw [hnames] at hn
    by_cases he : n = d.inode
    · have hh := hfile hash n hn he
      subst he
      rw [hself,hh]
      apply hfull
      by_cases hji : j = i
      · subst hji
        rw [hdi] at hj
        obtain rfl := Option.some.inj hj
        exact .inl hx
      · rw [hdj j hji] at hj
        exact .inr fun hu => by simp [hu j dj hji hj hin] at hx
    · rw [hrest n he]
      refine h.full hash n hn ⟨j,dj,?_,hin,hx⟩
      by_cases hji : j = i
      · subst hji
        rw [hdi] at hj
        obtain rfl := Option.some.inj hj
        exact absurd (hin.symm.trans hinode) he
      · rwa [hdj j hji] at hj
  · intro r hr
    rw [hdb] at hr
    obtain ⟨n,hn,hc⟩ := h.rows r hr
    refine ⟨n,by rw [hnames]; exact hn,?_⟩
    by_cases he : n = d.inode
    · have hh := hfile _ n hn he
      subst he
      rw [hself,hh]
      exact hrow ⟨r,hr,hh⟩
    · rw [hrest n he]
      exact hc
  · intro j ht
    rw [hdb]
    by_cases hj : j = i
    · subst hj
      rw [Told,hsent,hhello] at ht
      exact h.told j ht
    · rw [hother j hj] at ht
      exact h.told j ht
  · intro j
    by_cases hj : j = i
    · subst hj
      simpa using hs
    · rw [update_of_ne hj]
      refine holds_kept (h.stages j) (hdj j hj) (by rw [hother j hj])
        (fun r hr => ⟨r,by rw [hdb]; exact hr,rfl⟩) ?_
      intro dj hdj'
      by_cases he : dj.inode = d.inode
      · rw [he,hself,Uploads.own,hash_eq h hd hdj' he]
        exact hshared j dj hj hdj' he
      · rw [hrest _ he]
        exact kept_refl _ _

theorem sound_stage (h : Sound U Λ w) {s : Stage} (hs : s.Holds U w i) :
    Sound U (update Λ i s) w := by
  refine { h with stages := fun j => ?_ }
  by_cases hj : j = i
  · subst hj
    simpa using hs
  · rw [update_of_ne hj]
    exact h.stages j

/-- A change of the tables keeps the invariant when no hash loses its row and
every new row is of a complete file. -/
theorem sound_tables (h : Sound U Λ w) {db : Db} {s : Stage}
    (hold : ∀ r ∈ w.db.files, ∃ r' ∈ db.files, r'.sha256sum = r.sha256sum)
    (hnew : ∀ r ∈ db.files, (∃ r' ∈ w.db.files, r.sha256sum = r'.sha256sum) ∨
      (Hex.hexLower r.sha256sum = (U.hello i).hash ∧ ∃ d, w.node.desc i = some d ∧
        w.node.store.data d.inode = U.own i))
    (hs : s.Holds U { w with db := db } i) : Sound U (update Λ i s) { w with db := db } where
  storeDir := h.storeDir
  hello := h.hello
  answer := h.answer
  desc := h.desc
  whole := h.whole
  full := h.full
  rows := by
    intro r hr
    rcases hnew r hr with ⟨r',hr',he⟩ | ⟨hh,d,hd,hc⟩
    · rw [he]
      exact h.rows r' hr'
    · rw [hh]
      exact ⟨d.inode,h.desc i d hd,hc⟩
  told := by
    intro j ht
    obtain ⟨r,hr,hh⟩ := h.told j ht
    obtain ⟨r',hr',he⟩ := hold r hr
    exact ⟨r',hr',by rw [he]; exact hh⟩
  stages := by
    intro j
    by_cases hj : j = i
    · subst hj
      simpa using hs
    · rw [update_of_ne hj]
      exact holds_kept (h.stages j) rfl rfl hold fun d _ => kept_refl _ _

theorem sound_deliver (h : Sound U Λ w) {p : Packet} {s : Stage}
    (hp : (p = completeReply ∨ ∃ q, p = .file q ∧ q.hash = (U.hello i).hash) →
      ∃ r ∈ w.db.files, Hex.hexLower r.sha256sum = (U.hello i).hash)
    (hs : s.Holds U (w.setNode (w.node.deliver i p)) i) :
    Sound U (update Λ i s) (w.setNode (w.node.deliver i p)) := by
  have hconn : ∀ j, j ≠ i → (w.setNode (w.node.deliver i p)).node.conn j = w.node.conn j := by
    intro j hj
    simp [World.setNode,Node.deliver,Node.setConn,hj]
  have hself : ((w.setNode (w.node.deliver i p)).node.conn i).sent =
      (w.node.conn i).sent ++ [p] := by
    simp [World.setNode,Node.deliver,Node.setConn]
  have hhello : ((w.setNode (w.node.deliver i p)).node.conn i).hello =
      (w.node.conn i).hello := by
    simp [World.setNode,Node.deliver,Node.setConn]
  constructor
  · exact h.storeDir
  · intro j
    by_cases hj : j = i
    · subst hj
      exact hhello.trans (h.hello j)
    · rw [hconn j hj]
      exact h.hello j
  · intro j q
    by_cases hj : j = i
    · subst hj
      simpa [World.setNode,Node.deliver,Node.setConn] using h.answer j q
    · rw [hconn j hj]
      exact h.answer j q
  · exact h.desc
  · exact h.whole
  · exact h.full
  · exact h.rows
  · intro j ht
    by_cases hj : j = i
    · subst hj
      rw [Told,hself,hhello] at ht
      rcases ht with hc | ⟨q,hq,hqh⟩
      · rcases List.mem_append.mp hc with hc | hc
        · exact h.told j (.inl hc)
        · exact hp (.inl (List.mem_singleton.mp hc).symm)
      · rcases List.mem_append.mp hq with hq | hq
        · exact h.told j (.inr ⟨q,hq,hqh⟩)
        · exact hp (.inr ⟨q,(List.mem_singleton.mp hq).symm,by rw [hqh,h.hello]⟩)
    · rw [hconn j hj] at ht
      exact h.told j ht
  · intro j
    by_cases hj : j = i
    · subst hj
      simpa using hs
    · rw [update_of_ne hj]
      exact holds_kept (h.stages j) rfl (by rw [hconn j hj]) (fun r hr => ⟨r,hr,rfl⟩)
        fun d _ => kept_refl _ _

/-- Closing keeps the invariant when the file is not left extended by the
caller with bytes missing. -/
theorem sound_close (h : Sound U Λ w)
    (hd : ∀ d, w.node.desc i = some d → d.extended = true →
      w.node.store.data d.inode = U.own i) :
    Sound U (update Λ i .idle) (w.setNode (w.node.setDesc i none)) := by
  have hdj : ∀ j, j ≠ i → (w.setNode (w.node.setDesc i none)).node.desc j = w.node.desc j := by
    intro j hj
    simp [World.setNode,Node.setDesc,hj]
  have hdi : (w.setNode (w.node.setDesc i none)).node.desc i = none := by
    simp [World.setNode,Node.setDesc]
  constructor
  · exact h.storeDir
  · exact h.hello
  · exact h.answer
  · intro j dj hj
    by_cases hji : j = i
    · subst hji
      cases hdi.symm.trans hj
    · exact h.desc j dj ((hdj j hji).symm.trans hj)
  · intro hash n hn hx
    by_cases he : ∃ d, w.node.desc i = some d ∧ d.inode = n ∧ d.extended = true
    · obtain ⟨d,hdi',rfl,hex⟩ := he
      have hh : hash = (U.hello i).hash :=
        storePath_injective (w.node.store.single hn (h.desc i d hdi'))
      have hc := hd d hdi' hex
      rw [Uploads.own,← hh] at hc
      exact ⟨[],by rw [List.append_nil]; exact hc⟩
    · refine h.whole hash n hn fun j dj hj hin => ?_
      by_cases hji : j = i
      · subst hji
        by_contra hex
        exact he ⟨dj,hj,hin,by simpa using hex⟩
      · exact hx j dj (by rw [hdj j hji]; exact hj) hin
  · rintro hash n hn ⟨j,dj,hj,hin,hex⟩
    by_cases hji : j = i
    · subst hji
      cases hdi.symm.trans hj
    · exact h.full hash n hn ⟨j,dj,(hdj j hji).symm.trans hj,hin,hex⟩
  · exact h.rows
  · exact h.told
  · intro j
    by_cases hj : j = i
    · subst hj
      simpa [Stage.Holds] using hdi
    · rw [update_of_ne hj]
      exact holds_kept (h.stages j) (hdj j hj) rfl (fun r hr => ⟨r,hr,rfl⟩)
        fun d _ => kept_refl _ _

theorem sound_open (h : Sound U Λ w) (hi : w.node.desc i = none) {store : Inodes Text Content}
    {n : ℕ} (ho : w.node.store.openOrCreate (U.path i) [] = (n,store)) :
    Sound U (update Λ i .opened)
      (w.setNode { w.node with
        store := store, desc := update w.node.desc i (some ⟨n,0,false⟩) }) := by
  have hnames : store.names (U.path i) = some n := by
    have hn := Inodes.openOrCreate_names w.node.store (U.path i) []
    rwa [ho] at hn
  have hold : ∀ p k, w.node.store.names p = some k →
      store.names p = some k ∧ store.data k = w.node.store.data k := by
    intro p k hp
    cases hm : w.node.store.names (U.path i) with
    | some m =>
      rw [Inodes.openOrCreate_of_some [] hm] at ho
      obtain ⟨rfl,rfl⟩ := Prod.mk.inj ho
      exact ⟨hp,rfl⟩
    | none =>
      rw [Inodes.openOrCreate_of_none [] hm] at ho
      obtain ⟨rfl,rfl⟩ := Prod.mk.inj ho
      have hpi : p ≠ U.path i := by
        rintro rfl
        simp [hm] at hp
      have hk := w.node.store.below hp
      have hkn : k ≠ w.node.store.next := by omega
      simp [hpi,hp,hkn]
  have hnew : ∀ p k, store.names p = some k →
      (w.node.store.names p = some k ∧ store.data k = w.node.store.data k) ∨
        store.data k = [] := by
    intro p k hp
    cases hm : w.node.store.names (U.path i) with
    | some m =>
      rw [Inodes.openOrCreate_of_some [] hm] at ho
      obtain ⟨rfl,rfl⟩ := Prod.mk.inj ho
      exact .inl ⟨hp,rfl⟩
    | none =>
      rw [Inodes.openOrCreate_of_none [] hm] at ho
      obtain ⟨rfl,rfl⟩ := Prod.mk.inj ho
      by_cases hpi : p = U.path i
      · subst hpi
        obtain rfl : w.node.store.next = k := by simpa using hp
        exact .inr (by simp)
      · have hp' : w.node.store.names p = some k := by simpa [hpi] using hp
        have hk := w.node.store.below hp'
        have hkn : k ≠ w.node.store.next := by omega
        exact .inl ⟨hp',by simp [hkn]⟩
  have hdj : ∀ j, j ≠ i → update w.node.desc i (some ⟨n,0,false⟩) j = w.node.desc j :=
    fun j hj => update_of_ne hj _ _
  constructor
  · exact h.storeDir
  · exact h.hello
  · exact h.answer
  · intro j dj hj
    by_cases hji : j = i
    · subst hji
      obtain rfl : ⟨n,0,false⟩ = dj := by simpa using hj
      exact hnames
    · exact (hold _ _ (h.desc j dj ((hdj j hji).symm.trans hj))).1
  · intro hash k hk hx
    rcases hnew _ _ hk with ⟨hk',he⟩ | he
    · refine he.symm ▸ h.whole hash k hk' fun j dj hj hin => ?_
      by_cases hji : j = i
      · subst hji
        simp [hi] at hj
      · exact hx j dj ((hdj j hji).trans hj) hin
    · exact he.symm ▸ List.nil_prefix
  · rintro hash k hk ⟨j,dj,hj,hin,hex⟩
    by_cases hji : j = i
    · subst hji
      obtain rfl : ⟨n,0,false⟩ = dj := by simpa using hj
      simp at hex
    · replace hj := (hdj j hji).symm.trans hj
      have hkj : w.node.store.names (storePath U.storeDir hash) = some k := by
        have hs := store.single hk (hin ▸ (hold _ _ (h.desc j dj hj)).1)
        rw [hs,← hin]
        exact h.desc j dj hj
      refine (congrArg List.length (hold _ _ hkj).2).trans ?_
      exact h.full hash k hkj ⟨j,dj,hj,hin,hex⟩
  · intro r hr
    obtain ⟨k,hk,hc⟩ := h.rows r hr
    exact ⟨k,(hold _ _ hk).1,(hold _ _ hk).2.trans hc⟩
  · exact h.told
  · intro j
    by_cases hj : j = i
    · subst hj
      rw [update_self]
      exact ⟨_,update_self _ _ _,rfl⟩
    · rw [update_of_ne hj]
      refine holds_kept (h.stages j) (hdj j hj) rfl (fun r hr => ⟨r,hr,rfl⟩) fun d hd => ?_
      have he : store.data d.inode = w.node.store.data d.inode := (hold _ _ (h.desc j d hd)).2
      rw [setNode_node,he]
      exact kept_refl _ _

end Edits

end WindCloud
