import WindCloud.Server.UploadRuns
import WindCloud.Server.Usage

/-!
# One upload with nothing else running

`handle_puts` extends the store file to its full length before it receives the
content. When mapping, positioning or writing then fails, it returns and leaves
the file at this length: what is in place is followed by zero bytes.
-/

set_option autoImplicit false

namespace WindCloud
open CString Effect Function Buffer

/-- Whether mapping, positioning or writing the file has failed, and the
position behind the last byte written. -/
structure Progress where
  failed : Bool
  pos : ℕ
  deriving DecidableEq, Repr

namespace Progress

def start : Progress := ⟨false,0⟩

def note {ι : Type} : (o : Op) → o.Res → World ι → Progress → Progress
  | .mmap _, (done : Bool), _, p => { p with failed := p.failed || !done }
  | .lseek pos, (done : Bool), _, p =>
    if done = true then { p with pos := pos.toNat } else { p with failed := true }
  | .write _, (n : ℕ), _, p => if n = 0 then { p with failed := true } else { p with pos := p.pos+n }
  | .recvMapped pos _, (n : ℕ), _, p => if n = 0 then p else { p with pos := pos.toNat+n }
  | _, _, _, p => p

end Progress

/-- A truncation to a smaller size succeeds; any other operation may fail. -/
def Shrinks {ι : Type} (i : ι) (o : Op) (w : World ι) (c : Choice) : Prop :=
  match o with
  | .ftruncate size => ∀ d, w.node.desc i = some d →
      size < (w.node.store.data d.inode).length → c ≠ .fault
  | _ => True

section Frames

variable {ι : Type} [DecidableEq ι] {lib : Library} {i : ι}

/-- What an idle operation keeps, as far as the upload of `i` is concerned. -/
structure SameFiles (i : ι) (s s' : World ι × (ι → Progress)) : Prop where
  store : s'.1.node.store = s.1.node.store
  storeDir : s'.1.node.storeDir = s.1.node.storeDir
  hello : (s'.1.node.conn i).hello = (s.1.node.conn i).hello
  answer : (s'.1.node.conn i).answer = (s.1.node.conn i).answer
  progress : s'.2 i = s.2 i

omit [DecidableEq ι] in
theorem note_idle {o : Op} {r : o.Res} (ho : o.idle = true) (w : World ι) (p : Progress) :
    Progress.note o r w p = p := by
  cases o <;> simp only [Op.idle,Bool.false_eq_true] at ho <;> rfl

end Frames

section Programs

variable {ι : Type} [DecidableEq ι] (lib : Library) (i : ι) {α β : Type}

/-- Weakest precondition of a part of the upload of `i`, with its history. -/
abbrev Upload (p : Server α) (Q : α → World ι × (ι → Progress) → Prop)
    (s : World ι × (ι → Progress)) : Prop :=
  ((server ι lib).recorded Progress.note).wlp (fun o s => Shrinks i o s.1) i p Q s

variable {lib i} {s : World ι × (ι → Progress)}

theorem upload_op {o : Op} {f : o.Res → Server α} {Q : α → World ι × (ι → Progress) → Prop}
    (h : ∀ c r w', Shrinks i o s.1 c → execute lib o i s.1 c = some (r,w') →
      Upload lib i (f r) Q (w',update s.2 i (Progress.note o r s.1 (s.2 i)))) :
    Upload lib i (perform o >>= f) Q s := by
  intro c r s' hok hx
  obtain ⟨hx,hp⟩ := recorded_exec hx
  have hs := h c r s'.1 hok hx
  rwa [← hp] at hs

theorem upload_quiet {o : Op} {f : o.Res → Server α} {Q : α → World ι × (ι → Progress) → Prop}
    (hq : o.quiet = true) (ho : o.idle = true)
    (h : ∀ c r, execute lib o i s.1 c = some (r,s.1) → Upload lib i (f r) Q s) :
    Upload lib i (perform o >>= f) Q s := by
  refine upload_op fun c r w' _ hx => ?_
  obtain rfl := execute_quiet hq hx
  rw [note_idle ho,update_eq_self]
  exact h c r hx

theorem upload_idle {p : Server α} {Q : α → World ι × (ι → Progress) → Prop}
    (hp : Idle p) (hQ : ∀ a s', SameFiles i s s' → Q a s') :
    Upload lib i p Q s := by
  induction p generalizing s with
  | ret a => exact hQ a s ⟨rfl,rfl,rfl,rfl,rfl⟩
  | op o k ih =>
    intro c r s' hok hx
    obtain ⟨hx,hr⟩ := recorded_exec hx
    obtain ⟨h1,h2,h3,h4⟩ := execute_idle hp.1 hx
    have h5 : s'.2 i = s.2 i := by rw [hr,update_self,note_idle hp.1]
    exact ih r (hp.2 r) fun a t ht => hQ a t
      ⟨ht.store.trans h1,ht.storeDir.trans h2,ht.hello.trans h3,ht.answer.trans h4,
        ht.progress.trans h5⟩

theorem upload_idle_bind {p : Server α} {f : α → Server β}
    {Q : β → World ι × (ι → Progress) → Prop} (hp : Idle p)
    (hf : ∀ a s', SameFiles i s s' → Upload lib i (f a) Q s') :
    Upload lib i (p >>= f) Q s :=
  (Machine.wlp_bind p f Q s).mpr (upload_idle hp hf)

/-- The file is a beginning of the content when nothing has failed, or when
what is missing of the content is zero bytes. -/
def Leaves (c : Content) (path : Text) (held : ℕ) (i : ι) (s : World ι × (ι → Progress)) : Prop :=
  (∀ f, s.1.node.store.read path = some f → f <+: c) ↔
    ((s.2 i).failed = false ∨ ∀ x ∈ c.drop (max held (s.2 i).pos), x = '\x00')

/-- The open file extended to the full length, in place up to `l`, or up to the
`held` bytes it had before. -/
structure Filling (c : Content) (path : Text) (held : ℕ) (i : ι) (l : ℕ)
    (s : World ι × (ι → Progress)) : Prop where
  file : ∃ d, s.1.node.desc i = some d ∧ s.1.node.store.names path = some d.inode ∧
    s.1.node.store.data d.inode = padded '\x00' c (max held l)
  pos : max held (s.2 i).pos = max held l
  failed : (s.2 i).failed = false

/-- The same with the descriptor positioned at `l`. -/
structure Seeked (c : Content) (path : Text) (held : ℕ) (i : ι) (l : ℕ)
    (s : World ι × (ι → Progress)) : Prop where
  file : ∃ d, s.1.node.desc i = some d ∧ d.pos = l ∧ s.1.node.store.names path = some d.inode ∧
    s.1.node.store.data d.inode = padded '\x00' c (max held l)
  pos : (s.2 i).pos = l
  failed : (s.2 i).failed = false

variable {c : Content} {path : Text} {held : ℕ}

omit [DecidableEq ι] in
theorem leaves_same {s' : World ι × (ι → Progress)} (h : SameFiles i s s')
    (hl : Leaves c path held i s) : Leaves c path held i s' := by
  unfold Leaves
  rw [h.store,h.progress]
  exact hl

omit [DecidableEq ι] in
theorem leaves_unfailed (hf : (s.2 i).failed = false)
    (h : ∀ f, s.1.node.store.read path = some f → f <+: c) : Leaves c path held i s :=
  iff_of_true h (.inl hf)

omit [DecidableEq ι] in
theorem leaves_failed {n : ℕ} (hf : (s.2 i).failed = true)
    (hn : s.1.node.store.names path = some n)
    (hd : s.1.node.store.data n = padded '\x00' c (max held (s.2 i).pos)) :
    Leaves c path held i s := by
  unfold Leaves
  rw [Inodes.read_eq hn,hd,hf]
  simp only [Option.some.injEq,forall_eq',Bool.true_eq_false,false_or]
  exact padded_prefix _ _ _

omit [DecidableEq ι] in
theorem seeked_filling {l : ℕ} (h : Seeked c path held i l s) : Filling c path held i l s := by
  obtain ⟨d,hd,_,hn,hf⟩ := h.file
  exact ⟨⟨d,hd,hn,hf⟩,by rw [h.pos],h.failed⟩

omit [DecidableEq ι] in
theorem seeked_keep {l : ℕ} {s' : World ι × (ι → Progress)}
    (hs : s'.1.node.store = s.1.node.store) (hd : s'.1.node.desc i = s.1.node.desc i)
    (hp : s'.2 i = s.2 i) (h : Seeked c path held i l s) : Seeked c path held i l s' := by
  obtain ⟨d,hdi,hpos,hn,hf⟩ := h.file
  exact ⟨⟨d,hd.trans hdi,hpos,by rw [hs,hn],by rw [hs,hf]⟩,by rw [hp,h.pos],by rw [hp,h.failed]⟩

theorem upload_settled {p : Server α} (hp : Idle p)
    (h : Leaves c path held i s) : Upload lib i p (fun _ => Leaves c path held i) s :=
  upload_idle hp fun _ _ hs => leaves_same hs h

theorem seeked_append {l n : ℕ} {bs : Content} {d : Descriptor} (hd : s.1.node.desc i = some d)
    (hbs : bs <+: c.drop l) (hn : bs.length = n) (hle : l ≤ c.length)
    (h : Seeked c path held i l s) :
    Seeked c path held i (l+n) (s.1.setNode (s.1.node.append i d bs),
      update s.2 i { s.2 i with pos := (s.2 i).pos+n }) := by
  obtain ⟨d',hd',hpos,hnm,hf⟩ := h.file
  obtain rfl : d' = d := Option.some.inj (hd'.symm.trans hd)
  constructor
  · refine ⟨{ d' with pos := d'.pos+bs.length },by simp [World.setNode,Node.append],
      by rw [hpos,hn],hnm,?_⟩
    have hs := splice_padded '\x00' (le_max_right held l) hle hbs
    rw [hn,show max (max held l) (l+n) = max held (l+n) by omega] at hs
    simp only [World.setNode,Node.append,Inodes.modify_data,update_self]
    rw [hf,hpos,hs]
  · simp [h.pos]
  · simpa using h.failed

omit [DecidableEq ι] in
theorem leaves_seeked_failed {l : ℕ} {p : ι → Progress} (h : Seeked c path held i l s)
    (hf : (p i).failed = true) (hp : (p i).pos = (s.2 i).pos) :
    Leaves c path held i (s.1,p) := by
  obtain ⟨d,_,_,hn,hd⟩ := h.file
  refine leaves_failed hf hn ?_
  rw [hd,hp,h.pos]

theorem upload_writeFileFull {buf : Content} {l passes total : ℕ}
    (hbuf : buf <+: c.drop l) (hle : l+buf.length ≤ c.length) (hp : buf.length ≤ passes+total)
    (ht : total ≤ buf.length) (h : Seeked c path held i (l+total) s) :
    Upload lib i (writeFileFull buf passes total)
      (fun done s' => (done = true → Seeked c path held i (l+buf.length) s' ∧
          (s'.1.node.conn i).stream = (s.1.node.conn i).stream) ∧
        (done = false → Leaves c path held i s')) s := by
  induction passes generalizing total s with
  | zero =>
    obtain rfl : total = buf.length := by omega
    exact ⟨fun _ => ⟨h,rfl⟩,by simp⟩
  | succ passes ih =>
    unfold writeFileFull
    split
    · rename_i hlt
      refine upload_op (o := .write _) fun ch (n : ℕ) w' _ hx => ?_
      rcases execute_write hx with ⟨d,hd,h0,hr,rfl⟩ | ⟨_,rfl,rfl⟩
      · have hne : n ≠ 0 := by omega
        have hlen : (buf.drop total).length = buf.length-total := List.length_drop
        have hbs : (buf.drop total).take n <+: c.drop (l+total) := by
          rw [← List.drop_drop]
          exact (List.take_prefix _ _).trans (hbuf.drop total)
        have hbn : ((buf.drop total).take n).length = n := by rw [List.length_take]; omega
        have hnext := seeked_append hd hbs hbn (by omega) h
        simp only [Progress.note,if_neg hne]
        rw [Nat.add_assoc] at hnext
        exact ih (by omega) (by omega) hnext
      · exact ⟨by simp,fun _ => leaves_seeked_failed h (by simp [Progress.note])
          (by simp [Progress.note])⟩
    · obtain rfl : total = buf.length := by omega
      exact ⟨fun _ => ⟨h,rfl⟩,by simp⟩

theorem upload_endUpload {ctx : ClientContext} {fullPath fileName : Text} {packet : FilePacket}
    {l k : ℕ} (hsize : packet.fileSize = c.length) (hk : l+k ≤ c.length)
    (h : Filling c path held i (l+k) s) :
    Upload lib i (endUpload ctx fullPath fileName packet l k)
      (fun _ => Leaves c path held i) s := by
  unfold endUpload
  split
  · rename_i hlt
    refine upload_op (o := .ftruncate _) fun ch done w' hok hx => ?_
    obtain ⟨d,hd,hn,hf⟩ := h.file
    have hshort : (l:ℤ)+k < (s.1.node.store.data d.inode).length := by
      rw [hf,padded_length]
      omega
    have hch := hok d hd hshort
    rcases execute_ftruncate hx with ⟨d',hd',_,_,_,rfl⟩ | ⟨_,hneg,_⟩ | ⟨hfault,_⟩
    · refine upload_settled (idle_bind (idle_sendMsg _) fun _ => idle_close)
        (leaves_unfailed (by simpa [Progress.note] using h.failed) ?_)
      obtain rfl : d' = d := Option.some.inj (hd'.symm.trans hd)
      intro f hr
      rw [show (s.1.setNode (s.1.node.resize i d' ((l:ℤ)+k).toNat)).node.store =
        s.1.node.store.modify d'.inode (Buffer.resize '\x00' (s.1.node.store.data d'.inode)
          ((l:ℤ)+k).toNat) from rfl,Inodes.read_modify_self hn] at hr
      obtain rfl := Option.some.inj hr
      rw [hf]
      have hto : ((l:ℤ)+k).toNat = l+k := by omega
      rw [hto]
      exact cut_prefix _ (agrees_mono (padded_agrees _ _ _) (by omega))
        (by rw [padded_length]; exact hk)
    · exact absurd hneg (by omega)
    · exact absurd hfault hch
  · refine upload_settled (idle_completeUpload _ _ _ _) (leaves_unfailed h.failed ?_)
    obtain ⟨d,_,hn,hf⟩ := h.file
    intro f hr
    rw [Inodes.read_eq hn,hf,padded_full _ (by omega)] at hr
    obtain rfl := Option.some.inj hr
    exact List.prefix_rfl

theorem filling_patch {l n : ℕ} {bs : Content} {d : Descriptor} (hd : s.1.node.desc i = some d)
    (hbs : bs <+: c.drop l) (hn : bs.length = n) (hle : l+n ≤ c.length)
    (h : Filling c path held i l s) :
    Filling c path held i (l+n) (s.1.setNode ((s.1.node.patch d l bs).consume i n),
      update s.2 i { s.2 i with pos := l+n }) := by
  obtain ⟨d',hd',hnm,hf⟩ := h.file
  obtain rfl : d' = d := Option.some.inj (hd'.symm.trans hd)
  constructor
  · refine ⟨d',hd,hnm,?_⟩
    have hs := splice_padded '\x00' (le_max_right held l) (by omega) hbs
    rw [hn,show max (max held l) (l+n) = max held (l+n) by omega] at hs
    simp only [World.setNode,Node.consume,Node.setConn,Node.patch,Inodes.modify_data,update_self]
    rw [hf,patch_eq_splice '\x00' _ _ _ (by rw [padded_length,hn]; exact hle),hs]
  · simp
  · simpa using h.failed

theorem consume_stream {w : World ι} {n : Node ι} {k l : ℕ}
    (h : (n.conn i).stream = c.drop l) :
    ((w.setNode (n.consume i k)).node.conn i).stream = c.drop (l+k) := by
  simp [World.setNode,Node.consume,Node.setConn,h]

theorem upload_receiveMapped {l k passes : ℕ} (hk : l+k ≤ c.length)
    (hst : (s.1.node.conn i).stream = c.drop (l+k)) (h : Filling c path held i (l+k) s) :
    Upload lib i (receiveMapped l (c.length-l) passes k)
      (fun k' s' => l+k' ≤ c.length ∧ Filling c path held i (l+k') s') s := by
  induction passes generalizing k s with
  | zero => exact ⟨hk,h⟩
  | succ passes ih =>
    unfold receiveMapped
    split
    · refine upload_op (o := .recvMapped _ _) fun ch (n : ℕ) w' _ hx => ?_
      rcases execute_recvMapped hx with ⟨d,hd,h0,_,hn,rfl⟩ | ⟨_,rfl,rfl⟩
      · have hne : n ≠ 0 := by omega
        have hlen : n ≤ c.length-(l+k) := by
          rw [hst,List.length_drop] at hn
          exact hn
        have hbn : ((s.1.node.conn i).stream.take n).length = n := by
          rw [List.length_take]
          omega
        have hbs : (s.1.node.conn i).stream.take n <+: c.drop (l+k) := by
          rw [hst]
          exact List.take_prefix _ _
        have hto : ((l:ℤ)+k).toNat = l+k := by omega
        have hnext := filling_patch hd hbs hbn (by omega) h
        rw [if_neg hne]
        simp only [Progress.note,if_neg hne,hto,Nat.add_assoc] at hnext ⊢
        refine ih (by omega) ?_ hnext
        rw [← Nat.add_assoc]
        exact consume_stream (by simpa [Node.patch] using hst)
      · have hsame : update s.2 i (Progress.note (.recvMapped ((l:ℤ)+k) (once (c.length-l) k)) 0
            s.1 (s.2 i)) = s.2 := update_eq_self i s.2
        rw [hsame]
        exact ⟨hk,h⟩
    · exact ⟨hk,h⟩

theorem upload_receiveBuffered {l k passes : ℕ} (hk : l+k ≤ c.length)
    (hst : (s.1.node.conn i).stream = c.drop (l+k)) (h : Seeked c path held i (l+k) s) :
    Upload lib i (receiveBuffered (c.length-l) passes k)
      (fun r s' => (∀ k', r = some k' → l+k' ≤ c.length ∧ Filling c path held i (l+k') s') ∧
        (r = none → Leaves c path held i s')) s := by
  induction passes generalizing k s with
  | zero => exact ⟨by rintro k' ⟨⟩; exact ⟨hk,seeked_filling h⟩,by simp⟩
  | succ passes ih =>
    unfold receiveBuffered
    split
    · refine upload_op (o := .recv _) fun ch buf w' _ hx => ?_
      rcases execute_recv hx with ⟨n,h0,_,hn,rfl,rfl⟩ | ⟨_,rfl,rfl⟩
      · rw [hst,List.length_drop] at hn
        have hbn : ((s.1.node.conn i).stream.take n).length = n := by
          rw [hst,List.length_take,List.length_drop]
          omega
        have hne : (s.1.node.conn i).stream.take n ≠ [] := by
          intro he
          rw [he] at hbn
          exact absurd hbn.symm (by simpa using Nat.pos_iff_ne_zero.mp h0)
        have hbs : (s.1.node.conn i).stream.take n <+: c.drop (l+k) := by
          rw [hst]
          exact List.take_prefix _ _
        have hkeep : Seeked c path held i (l+k) (s.1.setNode (s.1.node.consume i n),
            update s.2 i (Progress.note (.recv (once (c.length-l) k))
              ((s.1.node.conn i).stream.take n) s.1 (s.2 i))) :=
          seeked_keep (s := s) rfl rfl (by simp [Progress.note]) h
        rw [if_neg hne]
        have hfull : Upload lib i (writeFileFull ((s.1.node.conn i).stream.take n)
            ((s.1.node.conn i).stream.take n).length 0) _ _ :=
          upload_writeFileFull hbs (by omega) (by omega) (by omega) hkeep
        refine (Machine.wlp_bind _ _ _ _).mpr (Machine.wlp_mono _ ?_ hfull)
        rintro done t ⟨htrue,hfalse⟩
        cases done with
        | true =>
          obtain ⟨hs,hstream⟩ := htrue rfl
          rw [hbn] at hs ⊢
          rw [Nat.add_assoc] at hs
          refine ih (by omega) ?_ hs
          rw [hstream,← Nat.add_assoc]
          exact consume_stream hst
        | false => exact ⟨by simp,fun _ => hfalse rfl⟩
      · exact ⟨by rintro k' ⟨⟩; exact ⟨hk,seeked_filling (seeked_keep (s := s) rfl rfl
          (by simp [Progress.note]) h)⟩,by simp⟩
    · exact ⟨by rintro k' ⟨⟩; exact ⟨hk,seeked_filling h⟩,by simp⟩

theorem idle_reply (msg : Text) : Idle (sendMsg msg >>= fun _ => close) :=
  idle_bind (idle_sendMsg msg) fun _ => idle_close

theorem upload_receiveContent {ctx : ClientContext} {fullPath fileName : Text}
    {packet : FilePacket} {l : ℕ} (hsize : packet.fileSize = c.length) (hl : l ≤ c.length)
    (hst : (s.1.node.conn i).stream = c.drop l) (h : Filling c path held i l s) :
    Upload lib i (receiveContent ctx fullPath fileName packet l)
      (fun _ => Leaves c path held i) s := by
  obtain ⟨d,hd,hn,hf⟩ := h.file
  unfold receiveContent
  rw [hsize]
  split
  · refine upload_op (o := .mmap _) fun ch done w' _ hx => ?_
    obtain ⟨rfl,_⟩ := execute_mmap hx
    cases done with
    | true =>
      have hkeep : Filling c path held i (l+0) (s.1,update s.2 i
          (Progress.note (.mmap c.length) true s.1 (s.2 i))) :=
        ⟨⟨d,hd,hn,hf⟩,by simpa [Progress.note] using h.pos,by simpa [Progress.note] using h.failed⟩
      refine (Machine.wlp_bind _ _ _ _).mpr
        (Machine.wlp_mono _ ?_ (upload_receiveMapped (k := 0) hl hst hkeep))
      rintro k t ⟨hk,ht⟩
      exact upload_endUpload hsize hk ht
    | false =>
      exact upload_settled (idle_reply _) (leaves_failed (by simp [Progress.note]) hn
        (by simp only [Progress.note,update_self]; rw [h.pos]; exact hf))
  · refine upload_op (o := .lseek _) fun ch done w' _ hx => ?_
    rcases execute_lseek hx with ⟨d',hd',_,_,rfl,rfl⟩ | ⟨_,hneg,_⟩ | ⟨_,rfl,rfl⟩
    · obtain rfl : d' = d := Option.some.inj (hd'.symm.trans hd)
      have hseek : Seeked c path held i (l+0) (s.1.setNode (s.1.node.setDesc i
          (some { d' with pos := (l:ℤ).toNat })),
          update s.2 i (Progress.note (.lseek l) true s.1 (s.2 i))) :=
        ⟨⟨{ d' with pos := l },by simp [World.setNode,Node.setDesc],rfl,hn,hf⟩,
          by simp [Progress.note],by simpa [Progress.note] using h.failed⟩
      refine (Machine.wlp_bind _ _ _ _).mpr
        (Machine.wlp_mono _ ?_ (upload_receiveBuffered (k := 0) hl hst hseek))
      rintro r t ⟨hsome,hnone⟩
      cases r with
      | none => exact upload_settled (idle_reply _) (hnone rfl)
      | some k =>
        obtain ⟨hk,ht⟩ := hsome k rfl
        exact upload_endUpload hsize hk ht
    · exact absurd hneg (by omega)
    · exact upload_settled (idle_reply _) (leaves_failed (by simp [Progress.note]) hn
        (by simp only [Progress.note,update_self,Bool.false_eq_true,if_false]; rw [h.pos]; exact hf))

/-- The file as it was found, open and not yet extended. -/
structure Found (c : Content) (path : Text) (held : ℕ) (i : ι)
    (s : World ι × (ι → Progress)) : Prop where
  file : ∃ d, s.1.node.desc i = some d ∧ s.1.node.store.names path = some d.inode ∧
    s.1.node.store.data d.inode = c.take held
  fresh : s.2 i = .start

omit [DecidableEq ι] in
theorem leaves_found (h : Found c path held i s) : Leaves c path held i s := by
  obtain ⟨d,_,hn,hf⟩ := h.file
  refine leaves_unfailed (by rw [h.fresh]; rfl) fun f hr => ?_
  rw [Inodes.read_eq hn,hf] at hr
  obtain rfl := Option.some.inj hr
  exact List.take_prefix _ _

theorem found_extend {l : ℕ} {p : ι → Progress} {d : Descriptor} (hheld : held ≤ c.length)
    (hl : l ≤ held) (hd : s.1.node.desc i = some d) (hp : p i = .start)
    (h : Found c path held i s) :
    Filling c path held i l (s.1.setNode (s.1.node.resize i d c.length),p) := by
  obtain ⟨d',hd',hn,hf⟩ := h.file
  obtain rfl : d' = d := Option.some.inj (hd'.symm.trans hd)
  constructor
  · refine ⟨_,update_self i _ _,hn,?_⟩
    simp only [World.setNode,Node.resize,Inodes.modify_data,update_self]
    rw [hf,resize_padded _ hheld,max_eq_left hl]
  · simp [hp,Progress.start,hl]
  · simp [hp,Progress.start]

theorem upload_resumeUpload {ctx : ClientContext} {arg fullPath fileName : Text}
    {packet : FilePacket} {l : ℕ} (hsize : packet.fileSize = c.length) (hheld : held ≤ c.length)
    (hl : l ≤ held) (hans : ∀ q, (s.1.node.conn i).answer q = c.drop q.offset.toNat)
    (h : Found c path held i s) :
    Upload lib i (resumeUpload ctx arg fullPath fileName packet l)
      (fun _ => Leaves c path held i) s := by
  unfold resumeUpload
  rw [hsize]
  refine upload_op (o := .send _) fun ch sent w' _ hx => ?_
  have hnote : Progress.note (.send (.file (initFilePacket .puts arg c.length l none)))
    sent s.1 (s.2 i) = s.2 i := rfl
  rw [hnote,update_eq_self]
  rcases execute_send hx with ⟨_,rfl,rfl⟩ | ⟨_,rfl,rfl⟩
  · have hfound : Found c path held i (s.1.setNode (s.1.node.deliver i
        (.file (initFilePacket .puts arg c.length l none))),s.2) := ⟨h.file,h.fresh⟩
    have hst : ((s.1.setNode (s.1.node.deliver i
        (.file (initFilePacket .puts arg c.length l none)))).node.conn i).stream =
        c.drop l := by
      simp [World.setNode,Node.deliver,Node.setConn,hans,initFilePacket]
    rw [if_pos rfl]
    split
    · exact upload_settled (idle_completeUpload _ _ _ _) (leaves_found hfound)
    · refine upload_op (o := .ftruncate _) fun ch done w' _ hx => ?_
      obtain ⟨d,hd,hn,hf⟩ := hfound.file
      rcases execute_ftruncate hx with ⟨d',hd',_,_,rfl,rfl⟩ | ⟨_,hneg,_⟩ | ⟨_,rfl,rfl⟩
      · rw [if_pos rfl,if_neg (by omega)]
        refine upload_receiveContent hsize (by omega) hst
          (found_extend hheld hl hd' ?_ hfound)
        rw [update_self]
        exact h.fresh
      · exact absurd hneg (by omega)
      · exact upload_settled (idle_reply _)
          (leaves_found ⟨⟨d,hd,hn,hf⟩,by simpa [Progress.note] using h.fresh⟩)
  · exact upload_settled idle_close (leaves_found h)

/-- Before the store file is opened. -/
structure Awaiting (c : Content) (path : Text) (held : ℕ) (packet : FilePacket) (i : ι)
    (s : World ι × (ι → Progress)) : Prop where
  place : storePath s.1.node.storeDir packet.hash = path
  hello : (s.1.node.conn i).hello = packet
  answer : ∀ q, (s.1.node.conn i).answer q = c.drop q.offset.toNat
  file : s.1.node.store.read path = some (c.take held) ∨
    (s.1.node.store.read path = none ∧ held = 0)
  fresh : s.2 i = .start

variable {packet : FilePacket}

omit [DecidableEq ι] in
theorem awaiting_same {s' : World ι × (ι → Progress)} (h : SameFiles i s s')
    (ha : Awaiting c path held packet i s) : Awaiting c path held packet i s' where
  place := by rw [h.storeDir,ha.place]
  hello := by rw [h.hello,ha.hello]
  answer := by rw [h.answer]; exact ha.answer
  file := by rw [h.store]; exact ha.file
  fresh := by rw [h.progress,ha.fresh]

omit [DecidableEq ι] in
theorem leaves_awaiting (h : Awaiting c path held packet i s) : Leaves c path held i s := by
  refine leaves_unfailed (by rw [h.fresh]; rfl) fun f hr => ?_
  rcases h.file with hs | ⟨hs,_⟩
  · rw [hs] at hr
    obtain rfl := Option.some.inj hr
    exact List.take_prefix _ _
  · simp [hs] at hr

theorem upload_awaiting {p : Server α} (hp : Idle p) (h : Awaiting c path held packet i s) :
    Upload lib i p (fun _ => Leaves c path held i) s :=
  upload_settled hp (leaves_awaiting h)

theorem found_open (h : Awaiting c path held packet i s) :
    Found c path held i (s.1.setNode
      { s.1.node with
        store := (s.1.node.store.openOrCreate path []).2
        desc := update s.1.node.desc i
          (some ⟨(s.1.node.store.openOrCreate path []).1,0,false⟩) },s.2) := by
  refine ⟨⟨_,update_self i _ _,Inodes.openOrCreate_names _ _ _,?_⟩,h.fresh⟩
  simp only [World.setNode]
  cases hn : s.1.node.store.names path with
  | some n =>
    rw [Inodes.openOrCreate_of_some _ hn]
    rcases h.file with hs | ⟨hs,_⟩
    · rw [Inodes.read_eq hn] at hs
      exact Option.some.inj hs
    · rw [Inodes.read_eq hn] at hs
      cases hs
  | none =>
    rw [Inodes.openOrCreate_of_none _ hn]
    rcases h.file with hs | ⟨_,h0⟩
    · simp [Inodes.read,hn] at hs
    · simp [h0]

theorem upload_buildStoreFilePath {f : Option Text → Server α}
    {Q : α → World ι × (ι → Progress) → Prop} (h : Awaiting c path held packet i s)
    (hnone : Upload lib i (f none) Q s) (hsome : Upload lib i (f (some path)) Q s) :
    Upload lib i (buildStoreFilePath packet.hash >>= f) Q s := by
  refine upload_quiet (o := .storeDir) rfl rfl fun ch r hx => ?_
  rcases (execute_storeDir hx).1 with rfl | rfl
  · have hp : s.1.node.storeDir ++ '/'::packet.hash = path := h.place
    change Upload lib i (f (bounded maxPathLen (s.1.node.storeDir ++ '/'::packet.hash))) Q s
    rw [hp,bounded]
    split
    · exact hsome
    · exact hnone
  · exact hnone

theorem upload_uploadContent {ctx : ClientContext} {arg fullPath fileName : Text}
    (hsize : packet.fileSize = c.length) (hheld : held ≤ c.length)
    (h : Awaiting c path held packet i s) :
    Upload lib i (uploadContent ctx arg fullPath fileName packet)
      (fun _ => Leaves c path held i) s := by
  refine upload_buildStoreFilePath h (upload_awaiting (idle_sendMsg _) h) ?_
  refine upload_op (o := .openUpload _) fun ch opened w' _ hx => ?_
  have hnote : Progress.note (.openUpload path) opened s.1 (s.2 i) = s.2 i := rfl
  rw [hnote,update_eq_self]
  rcases execute_openUpload hx with ⟨rfl,rfl⟩ | ⟨rfl,rfl⟩
  · have hfound := found_open h
    rw [if_pos rfl]
    refine upload_quiet (o := .fstat) rfl rfl fun ch st hx => ?_
    have hst := (execute_fstat hx).2
    obtain ⟨d,hd,hn,hf⟩ := hfound.file
    obtain ⟨l,hl,hle⟩ : ∃ l : ℕ, st.getD 0 = l ∧ l ≤ held := by
      rcases hst with ⟨d',hd',_,rfl⟩ | ⟨_,rfl⟩
      · obtain rfl : d' = d := Option.some.inj (hd'.symm.trans hd)
        exact ⟨held,by rw [hf,List.length_take,min_eq_left hheld]; rfl,le_rfl⟩
      · exact ⟨0,rfl,by omega⟩
    rw [hl,if_neg (by omega)]
    exact upload_resumeUpload hsize hheld hle h.answer hfound
  · exact upload_awaiting (idle_sendMsg _) h

theorem upload_storeContent {ctx : ClientContext} {arg fullPath fileName : Text}
    (hsize : packet.fileSize = c.length) (hheld : held ≤ c.length)
    (h : Awaiting c path held packet i s) :
    Upload lib i (storeContent ctx arg fullPath fileName packet)
      (fun _ => Leaves c path held i) s := by
  refine upload_idle_bind (idle_sql _) fun r s₁ h₁ => ?_
  have ha₁ := awaiting_same h₁ h
  rcases r with _ | ⟨id,size⟩
  · exact upload_uploadContent hsize hheld ha₁
  · refine upload_idle_bind (idle_checkStoreFileReady _ _) fun r s₂ h₂ => ?_
    have ha₂ := awaiting_same h₂ ha₁
    rcases r with _ | _ | _
    · exact upload_awaiting (idle_sendMsg _) ha₂
    · exact upload_uploadContent hsize hheld ha₂
    · exact upload_awaiting (idle_instantUpload _ _ _ _ _ _) ha₂

theorem upload_handlePuts {ctx : ClientContext} {arg : Text} (hsize : packet.fileSize = c.length)
    (hheld : held ≤ c.length) (h : Awaiting c path held packet i s) :
    Upload lib i (handlePuts ctx arg) (fun _ => Leaves c path held i) s := by
  refine upload_quiet (o := .recvFile) rfl rfl fun ch r hx => ?_
  rcases (execute_recvFile hx).1 with rfl | rfl
  · rw [h.hello]
    dsimp only
    split
    · exact upload_awaiting (idle_sendMsg _) h
    · refine upload_idle_bind (idle_strcpy _ _) fun fileName s₁ h₁ => ?_
      have ha₁ := awaiting_same h₁ h
      split
      · refine upload_idle_bind (idle_getNodeByPath _ _) fun r s₂ h₂ => ?_
        have ha₂ := awaiting_same h₂ ha₁
        rcases r with _ | ⟨id,type⟩
        · dsimp only
          split
          · exact upload_awaiting (idle_sendMsg _) ha₂
          · exact upload_storeContent hsize hheld ha₂
        · exact upload_awaiting (idle_bind (idle_perform rfl) fun _ => idle_sendMsg _) ha₂
      · exact upload_awaiting (idle_sendMsg _) ha₁
  · exact upload_awaiting (idle_sendMsg _) h

end Programs

/-- The file at `path` is absent or a beginning of `c`. -/
def PrefixAt {ι : Type} (path : Text) (c : Content) (w : World ι) : Prop :=
  ∀ f, w.node.store.read path = some f → f <+: c

/-- Where an upload keeps the content it receives. -/
def uploadPath {ι : Type} (i : ι) (w : World ι) : Text :=
  storePath w.node.storeDir (w.node.conn i).hello.hash

def storedLength {ι : Type} (path : Text) (w : World ι) : ℕ :=
  ((w.node.store.read path).getD []).length

/-- An upload that finds a beginning of the content leaves one, unless mapping,
positioning or writing the extended file fails while a byte other than zero is
still missing; and then it does not. -/
theorem upload_leaves_prefix_iff {ι : Type} [DecidableEq ι] (lib : Library)
    (content : Text → Content) (ctx : ClientContext) (arg : Text) (i : ι) (w w' : World ι)
    (p : ι → Progress) (cs : List Choice) (hc : Honest content (w.node.conn i))
    (hw : PrefixAt (uploadPath i w) (content (w.node.conn i).hello.hash) w)
    (run : ((server ι lib).recorded Progress.note).Exec (fun o s => Shrinks i o s.1) i
      (handlePuts ctx arg) (w,fun _ => .start) cs () (w',p)) :
    PrefixAt (uploadPath i w) (content (w.node.conn i).hello.hash) w' ↔
      ((p i).failed = false ∨
        ∀ x ∈ (content (w.node.conn i).hello.hash).drop
          (max (storedLength (uploadPath i w) w) (p i).pos), x = '\x00') := by
  have hfile : w.node.store.read (uploadPath i w) = some
      ((content (w.node.conn i).hello.hash).take (storedLength (uploadPath i w) w)) ∨
      (w.node.store.read (uploadPath i w) = none ∧ storedLength (uploadPath i w) w = 0) := by
    cases hr : w.node.store.read (uploadPath i w) with
    | none => exact .inr ⟨rfl,by simp [storedLength,hr]⟩
    | some f =>
      refine .inl ?_
      rw [storedLength,hr]
      exact congrArg some (List.prefix_iff_eq_take.mp (hw f hr))
  have hle : storedLength (uploadPath i w) w ≤ (content (w.node.conn i).hello.hash).length := by
    rcases hfile with hr | ⟨_,h0⟩
    · rw [storedLength,hr]
      exact (hw _ hr).length_le
    · omega
  have ha : Awaiting (content (w.node.conn i).hello.hash) (uploadPath i w)
      (storedLength (uploadPath i w) w) (w.node.conn i).hello i (w,fun _ => .start) :=
    ⟨rfl,rfl,hc.answer,hfile,rfl⟩
  exact Machine.exec_wlp (Q := fun _ => Leaves _ _ _ i) run (upload_handlePuts hc.size hle ha)

namespace TwoUploads

def untruncated (o : Op) (c : Choice) : Bool :=
  decide (c ≠ .fault) ||
    match o with
    | .ftruncate _ => false
    | _ => true

theorem untruncated_shrinks {o : Op} {w : World Unit} {c : Choice} (h : untruncated o c = true) :
    Shrinks () o w c := by
  cases o with
  | ftruncate size =>
    intro d _ _
    simpa [untruncated] using h
  | _ => trivial

/-- The connection breaks when one of two bytes has been received. -/
def broken : List Choice :=
  List.replicate 9 .ok ++ [.count 1,.count 1,.fault] ++ List.replicate 3 .ok

/-- The file is extended to two bytes, and then cannot be positioned. -/
def unseekable : List Choice := List.replicate 8 .ok ++ [.fault] ++ List.replicate 2 .ok

end TwoUploads

open TwoUploads

theorem broken_upload_leaves_prefix :
    ∃ w' p, ((server Unit lib).recorded Progress.note).Exec (fun o s => Shrinks () o s.1) ()
        (handlePuts ⟨1,"/".toList,0⟩ "a".toList) (world Unit,fun _ => .start) broken () (w',p) ∧
      w'.node.store.read (uploadPath () (world Unit)) = some ['a'] ∧
      PrefixAt (uploadPath () (world Unit)) content w' := by
  have h : ((((server Unit lib).recorded Progress.note).restrict fun o _ => untruncated o).run ()
      (handlePuts ⟨1,"/".toList,0⟩ "a".toList) (world Unit,fun _ => .start) broken).map
      (fun r => (r.2.1.node.store.read (uploadPath () (world Unit)),(r.2.2 ()).failed)) =
      some (some ['a'],false) := by decide +kernel
  obtain ⟨⟨u,w',p⟩,hrun,ho⟩ := Option.map_eq_some_iff.mp h
  have hx : ((server Unit lib).recorded Progress.note).Exec (fun o s => Shrinks () o s.1) ()
      (handlePuts ⟨1,"/".toList,0⟩ "a".toList) (world Unit,fun _ => .start) broken u (w',p) :=
    Machine.exec_mono (fun _ _ _ hc => untruncated_shrinks hc)
      (Machine.restrict_exec (Machine.run_exec hrun))
  exact ⟨w',p,hx,congrArg Prod.fst ho,
    (upload_leaves_prefix_iff lib (fun _ => content) _ _ () _ _ _ _ honest (by simp [PrefixAt,
      world,Inodes.read,Inodes.empty]) hx).mpr (.inl (congrArg Prod.snd ho))⟩

theorem unseekable_upload_leaves_zeros :
    ¬ ∀ (ι : Type) [DecidableEq ι] (lib : Library) (content : Text → Content)
      (ctx : ClientContext) (arg : Text) (i : ι) (w w' : World ι) (cs : List Choice),
      Honest content (w.node.conn i) →
      PrefixAt (uploadPath i w) (content (w.node.conn i).hello.hash) w →
      (server ι lib).Exec (Shrinks i) i (handlePuts ctx arg) w cs () w' →
        PrefixAt (uploadPath i w) (content (w.node.conn i).hello.hash) w' := by
  intro hall
  have h : (((server Unit lib).restrict fun o _ => untruncated o).run ()
      (handlePuts ⟨1,"/".toList,0⟩ "a".toList) (world Unit) unseekable).map
      (fun r => r.2.node.store.read (uploadPath () (world Unit))) =
      some (some ['\x00','\x00']) := by decide +kernel
  obtain ⟨⟨u,w'⟩,hrun,ho⟩ := Option.map_eq_some_iff.mp h
  have hx : (server Unit lib).Exec (Shrinks ()) () (handlePuts ⟨1,"/".toList,0⟩ "a".toList)
      (world Unit) unseekable u w' :=
    Machine.exec_mono (fun _ _ _ hc => untruncated_shrinks hc)
      (Machine.restrict_exec (Machine.run_exec hrun))
  have hp := hall Unit lib (fun _ => content) _ _ () _ w' _ honest
    (by simp [PrefixAt,world,Inodes.read,Inodes.empty]) hx _ ho
  exact absurd hp (by decide)

end WindCloud
