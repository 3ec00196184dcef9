import WindCloud.Server.Cluster
import WindCloud.Server.SendLoops
import WindCloud.Server.TicketSafety
import WindCloud.Server.Usage

/-!
# What a transfer connection sends of a file

A history for each thread: the lookups it made, the file it opened and the bytes
it sent, each with the content of the file at that moment. The other threads may
do anything; a thread's open file and connection are its own.
-/

set_option autoImplicit false

namespace WindCloud
open CString Effect Function

/-- Bytes sent from position `pos` of a file which then contained `file`. -/
structure Sent where
  pos : ℤ
  bytes : Content
  file : Content
  deriving DecidableEq, Repr

/-- The last lookups of a thread, the file it opened and what it sent of it. -/
structure Delivery where
  asked : Option (ℤ × Text × ℕ)
  found : Option (ℕ × Text)
  opened : Option (Text × ℕ)
  sends : List Sent
  deriving DecidableEq, Repr

def Delivery.start : Delivery := ⟨none,none,none,[]⟩

namespace Delivery

def ask (d : Delivery) (userId : ℤ) (path : Text) : Option (ℕ × Option ℕ × ℕ) → Delivery
  | some (_,some fileId,0) => { d with asked := some (userId,path,fileId) }
  | _ => d

def find (d : Delivery) (fileId : ℕ) : Option (Text × ℤ) → Delivery
  | some (sha256sum,_) => { d with found := some (fileId,sha256sum) }
  | none => d

def openFile {ι : Type} (d : Delivery) (w : World ι) (path : Text) : Delivery :=
  match w.node.store.names path with
  | some n => { d with opened := some (path,n) }
  | none => d

def send {ι : Type} (d : Delivery) (w : World ι) (pos : ℤ) (bytes : Content) : Delivery :=
  match d.opened with
  | some (_,n) =>
    if bytes = [] then d else { d with sends := d.sends ++ [⟨pos,bytes,w.node.store.data n⟩] }
  | none => d

end Delivery

def noteDelivery {ι : Type} : (o : Op) → o.Res → World ι → Delivery → Delivery
  | .sql (.fileInfoByPath userId path), r, _, d => d.ask userId path r
  | .sql (.fileInfoById fileId), r, _, d => d.find fileId r
  | .openRead path, r, w, d => if (r : Bool) = true then d.openFile w path else d
  | .sendfile pos _, r, w, d => d.send w pos r
  | .sendMapped pos _, r, w, d => d.send w pos r
  | _, _, _, d => d

def deliveries (ι : Type) [DecidableEq ι] (lib : Library) :
    Machine Op Op.Res ι (World ι × (ι → Delivery)) Choice :=
  (server ι lib).recorded noteDelivery

/-- The size of an open file is an `off_t`. -/
def Representable {ι : Type} (i : ι) (o : Op) (s : World ι × (ι → Delivery)) (_ : Choice) : Prop :=
  o = .fstat → ∀ d, s.1.node.desc i = some d →
    ((s.1.node.store.data d.inode).length : ℤ) ≤ offMax

/-- The bytes follow each other in the file, from `p` up to `q`. -/
def Contiguous (p q : ℤ) : List Sent → Prop
  | [] => p = q
  | s::rest => s.pos = p ∧ s.bytes = (s.file.drop s.pos.toNat).take s.bytes.length ∧
    s.pos.toNat+s.bytes.length ≤ s.file.length ∧ Contiguous (p+s.bytes.length) q rest

theorem contiguous_concat {p q : ℤ} {l : List Sent} {s : Sent} (h : Contiguous p q l)
    (hpos : s.pos = q) (hbytes : s.bytes = (s.file.drop s.pos.toNat).take s.bytes.length)
    (hlen : s.pos.toNat+s.bytes.length ≤ s.file.length) :
    Contiguous p (q+s.bytes.length) (l ++ [s]) := by
  induction l generalizing p with
  | nil =>
    obtain rfl : p = q := h
    exact ⟨hpos,hbytes,hlen,rfl⟩
  | cons a l ih => exact ⟨h.1,h.2.1,h.2.2.1,ih h.2.2.2⟩

theorem contiguous_le {p q : ℤ} {l : List Sent} (h : Contiguous p q l) : p ≤ q := by
  induction l generalizing p with
  | nil => exact le_of_eq h
  | cons a l ih =>
    have := ih h.2.2.2
    omega

theorem contiguous_slice {p q : ℤ} {l : List Sent} {file : Content} (h : Contiguous p q l)
    (hp : 0 ≤ p) (hfile : ∀ s ∈ l, s.file = file) :
    l.flatMap (·.bytes) = (file.drop p.toNat).take (q-p).toNat := by
  induction l generalizing p with
  | nil =>
    obtain rfl : p = q := h
    simp
  | cons a l ih =>
    obtain ⟨hpos,hbytes,hlen,hrest⟩ := h
    obtain rfl : a.file = file := hfile a (by simp)
    subst hpos
    have hq := contiguous_le hrest
    have hn : (a.pos+a.bytes.length).toNat = a.pos.toNat+a.bytes.length := by omega
    have hsplit : (q-a.pos).toNat = a.bytes.length+(q-(a.pos+a.bytes.length)).toNat := by omega
    rw [List.flatMap_cons,ih hrest (by omega) (fun s hs => hfile s (by simp [hs])),hn,hsplit,
      List.take_add,← hbytes,List.drop_drop]

/-- What a range download may send: a run of bytes of the file the path leads
to, within the range. -/
structure Confined (userId : ℤ) (path storeDir : Text) (first last : ℤ) (d : Delivery) : Prop where
  file : d.sends ≠ [] → ∃ fileId sha256sum inode, d.asked = some (userId,path,fileId) ∧
    d.found = some (fileId,sha256sum) ∧ d.opened = some (storeDir ++ '/'::sha256sum,inode)
  run : ∃ p q, first ≤ p ∧ q ≤ last+1 ∧ Contiguous p q d.sends

/-- The other threads leave a thread's open file, connection and history alone. -/
structure Unmoved {ι : Type} (i : ι) (s s' : World ι × (ι → Delivery)) : Prop where
  desc : s'.1.node.desc i = s.1.node.desc i
  conn : s'.1.node.conn i = s.1.node.conn i
  storeDir : s'.1.node.storeDir = s.1.node.storeDir
  history : s'.2 i = s.2 i

/-- What thread `i` knows of the state: its history, the number of its open file
and the directory of the store. -/
structure Sees {ι : Type} (i : ι) (storeDir : Text) (inode : Option ℕ) (d : Delivery)
    (s : World ι × (ι → Delivery)) : Prop where
  storeDir : s.1.node.storeDir = storeDir
  inode : (s.1.node.desc i).map (·.inode) = inode
  history : s.2 i = d

namespace Op

/-- Operations that neither open nor send a file nor look one up. -/
def calm : Op → Bool
  | .sql (.nodeByPath _ _) | .configAddress | .storeDir | .recvAuth | .recvFile | .send _ | .time
  | .jwtDecode _ _ _ _ | .ticketConsume _ _ | .fstat | .mmap _ => true
  | _ => false

end Op

abbrev Calm {α : Type} (p : Server α) : Prop := p.Uses fun o => o.calm = true

section Rules

variable {ι : Type} [DecidableEq ι] {lib : Library} {i : ι} {α β : Type}
  {G : Op → World ι × (ι → Delivery) → Prop} {storeDir : Text} {inode : Option ℕ} {d : Delivery}
  {s s' : World ι × (ι → Delivery)}

omit [DecidableEq ι] in
theorem sees_unmoved (h : Sees i storeDir inode d s) (hs : Unmoved i s s') :
    Sees i storeDir inode d s' where
  storeDir := hs.storeDir.trans h.storeDir
  inode := by rw [hs.desc,h.inode]
  history := hs.history.trans h.history

theorem deliveries_unmoved {j : ι} {o : Op} {c : Choice} {r : o.Res} (hj : j ≠ i)
    (h : (deliveries ι lib).exec o j s c = some (r,s')) : Unmoved i s s' := by
  obtain ⟨hx,hg⟩ := recorded_exec h
  obtain ⟨hd,hc⟩ := execute_apart (Ne.symm hj) hx
  exact ⟨hd,hc,(execute_announced hx).1,by rw [hg,update_of_ne (Ne.symm hj)]⟩

omit [DecidableEq ι] in
theorem calm_note {o : Op} (ho : o.calm = true) (r : o.Res) (w : World ι) (d : Delivery) :
    noteDelivery o r w d = d := by
  cases o <;> simp only [Op.calm,Bool.false_eq_true] at ho
  case sql t => cases t <;> first | rfl | simp at ho
  all_goals rfl

theorem execute_calm {o : Op} {w w' : World ι} {c : Choice} {r : o.Res} (ho : o.calm = true)
    (h : execute lib o i w c = some (r,w')) : w'.node.desc i = w.node.desc i := by
  by_cases hq : o.quiet = true
  · rw [execute_quiet hq h]
  cases o <;> simp only [Op.calm,Op.quiet,not_true,Bool.false_eq_true] at ho hq
  case sql t => rcases execute_sql h with ⟨_,db,_,rfl⟩ | ⟨_,_,rfl⟩ <;> rfl
  case send p => rcases execute_send h with ⟨_,_,rfl⟩ | ⟨_,_,rfl⟩ <;> rfl
  case ticketConsume now id =>
    cases c <;> simp [execute] at h
    obtain ⟨_,rfl⟩ := h
    rfl

/-- Thread `i` keeps to `G`, whatever the others do in between. -/
abbrev Delivers (lib : Library) (i : ι) (G : Op → World ι × (ι → Delivery) → Prop)
    (p : Server α) (Q : α → World ι × (ι → Delivery) → Prop) (s : World ι × (ι → Delivery)) : Prop :=
  (deliveries ι lib).disturbed.guarded (Machine.Disturbance (Unmoved i) (Representable i)) i G p Q s

theorem sees_step {o : Op} {c : (World ι × (ι → Delivery)) × Choice} {r : o.Res}
    (hs : Sees i storeDir inode d s) (hok : Machine.Disturbance (Unmoved i) (Representable i) o s c)
    (hx : (deliveries ι lib).disturbed.exec o i s c = some (r,s')) :
    Sees i storeDir inode d c.1 ∧ execute lib o i c.1.1 c.2 = some (r,s'.1) ∧
      s'.1.node.storeDir = storeDir ∧ s'.2 i = noteDelivery o r c.1.1 d := by
  obtain ⟨hx,hg⟩ := recorded_exec hx
  have hw := sees_unmoved hs hok.1
  refine ⟨hw,hx,(execute_announced hx).1.trans hw.storeDir,?_⟩
  rw [hg,update_self,hw.history]

theorem delivers_op {o : Op} {k : o.Res → Server α} {Q : α → World ι × (ι → Delivery) → Prop}
    (hs : Sees i storeDir inode d s) (hG : G o s)
    (h : ∀ w c r s', Sees i storeDir inode d w → Representable i o w c →
      execute lib o i w.1 c = some (r,s'.1) → s'.1.node.storeDir = storeDir →
      s'.2 i = noteDelivery o r w.1 d → Delivers lib i G (k r) Q s') :
    Delivers lib i G (.op o k) Q s := by
  refine ⟨hG,fun c r s' hok hx => ?_⟩
  obtain ⟨hw,hx,hdir,hg⟩ := sees_step hs hok hx
  exact h c.1 c.2 r s' hw hok.2 hx hdir hg

theorem sees_calm {o : Op} {w : World ι × (ι → Delivery)} {c : Choice} {r : o.Res}
    (ho : o.calm = true) (hw : Sees i storeDir inode d w)
    (hx : execute lib o i w.1 c = some (r,s'.1)) (hdir : s'.1.node.storeDir = storeDir)
    (hg : s'.2 i = noteDelivery o r w.1 d) : Sees i storeDir inode d s' where
  storeDir := hdir
  inode := by rw [execute_calm ho hx,hw.inode]
  history := hg.trans (calm_note ho r w.1 d)

theorem delivers_calm {o : Op} {k : o.Res → Server α} {Q : α → World ι × (ι → Delivery) → Prop}
    (ho : o.calm = true) (hs : Sees i storeDir inode d s) (hG : G o s)
    (h : ∀ r s', Sees i storeDir inode d s' → Delivers lib i G (k r) Q s') :
    Delivers lib i G (.op o k) Q s :=
  delivers_op hs hG fun _ _ r s' hw _ hx hdir hg => h r s' (sees_calm ho hw hx hdir hg)

theorem delivers_uses {p : Server α} (hp : Calm p) (hs : Sees i storeDir inode d s)
    (hG : ∀ o s, o.calm = true → Sees i storeDir inode d s → G o s) :
    Delivers lib i G p (fun _ s' => Sees i storeDir inode d s') s := by
  refine Machine.guarded_uses hG ?_ hp hs
  intro o s c r s' ho hs hok hx
  obtain ⟨hw,hx,hdir,hg⟩ := sees_step hs hok hx
  exact sees_calm ho hw hx hdir hg

theorem delivers_close {Q : Unit → World ι × (ι → Delivery) → Prop}
    (hs : Sees i storeDir inode d s) (hG : G .close s)
    (h : ∀ s', Sees i storeDir none d s' → Q () s') : Delivers lib i G close Q s := by
  refine delivers_op hs hG fun w c r s' hw _ hx hdir hg => h s' ⟨hdir,?_,hg⟩
  rw [execute_close hx]
  simp [Node.setDesc]

end Rules

section Sending

variable {ι : Type} [DecidableEq ι] {lib : Library} {i : ι}

/-- A file of the user's path was looked up and opened, and `p` to `cur` sent of it. -/
structure Reading (userId : ℤ) (path storeDir : Text) (inode : ℕ) (p cur : ℤ) (d : Delivery) :
    Prop where
  file : ∃ fileId sha256sum, d.asked = some (userId,path,fileId) ∧
    d.found = some (fileId,sha256sum) ∧ d.opened = some (storeDir ++ '/'::sha256sum,inode)
  run : Contiguous p cur d.sends

variable {userId : ℤ} {path storeDir : Text} {inode : ℕ} {first last p cur : ℤ} {d : Delivery}
  {s s' : World ι × (ι → Delivery)}

/-- The thread keeps to its range, and no sum or difference leaves `off_t`. -/
def RangeKept (userId : ℤ) (path storeDir : Text) (first last : ℤ) (i : ι) (o : Op)
    (s : World ι × (ι → Delivery)) : Prop :=
  o ≠ .overflow ∧ Confined userId path storeDir first last (s.2 i)

theorem reading_confined (h : Reading userId path storeDir inode p cur d) (hp : first ≤ p)
    (hcur : cur ≤ last+1) : Confined userId path storeDir first last d where
  file := fun _ => by
    obtain ⟨fileId,sha256sum,ha,hf,ho⟩ := h.file
    exact ⟨fileId,sha256sum,inode,ha,hf,ho⟩
  run := ⟨p,cur,hp,hcur,h.run⟩

omit [DecidableEq ι] in
theorem reading_send {n : ℕ} {w : World ι} {r : Content} {desc : Descriptor}
    (h : Reading userId path storeDir inode p cur d) (hr : r ≠ [])
    (hdesc : desc.inode = inode) (hlen : cur.toNat+r.length ≤ (w.node.store.data desc.inode).length)
    (hbytes : r = ((w.node.store.data desc.inode).drop cur.toNat).take r.length)
    (hn : n = r.length) :
    Reading userId path storeDir inode p (cur+n) (d.send w cur r) := by
  obtain ⟨fileId,sha256sum,ha,hf,ho⟩ := h.file
  subst hn hdesc
  refine ⟨⟨fileId,sha256sum,?_⟩,?_⟩
  · simp [Delivery.send,ho,hr,ha,hf]
  · have hc := contiguous_concat (s := ⟨cur,r,w.node.store.data desc.inode⟩) h.run rfl hbytes hlen
    simpa [Delivery.send,ho,hr] using hc

theorem sees_send {w : World ι × (ι → Delivery)} {c : Choice} {count : ℤ} {bytes : Content}
    (hw : Sees i storeDir (some inode) d w) (hr : Reading userId path storeDir inode p cur d)
    (hx : execute lib (.sendfile cur count) i w.1 c = some (bytes,s'.1))
    (hdir : s'.1.node.storeDir = storeDir) (hg : s'.2 i = d.send w.1 cur bytes) :
    (bytes = [] ∧ Sees i storeDir (some inode) d s') ∨
      (bytes ≠ [] ∧ (bytes.length : ℤ) ≤ count ∧
        ∃ d', Sees i storeDir (some inode) d' s' ∧
          Reading userId path storeDir inode p (cur+bytes.length) d') := by
  obtain ⟨hs,hb⟩ := execute_sendfile hx
  have hinode : (s'.1.node.desc i).map (·.inode) = some inode := by rw [hs,hw.inode]
  rcases hb with ⟨_,rfl⟩ | ⟨desc,hd,_,hne,hle,hlen,hbytes⟩
  · have hsame : d.send w.1 cur [] = d := by
      unfold Delivery.send
      split <;> simp
    exact .inl ⟨rfl,hdir,hinode,hg.trans hsame⟩
  · have hn := hw.inode
    rw [hd,Option.map_some,Option.some.injEq] at hn
    exact .inr ⟨hne,hle,_,⟨hdir,hinode,hg⟩,reading_send hr hne hn hlen hbytes rfl⟩

abbrev InRange (lib : Library) (userId : ℤ) (path storeDir : Text) (first last : ℤ) (i : ι)
    {α : Type} (p : Server α) (Q : α → World ι × (ι → Delivery) → Prop)
    (s : World ι × (ι → Delivery)) : Prop :=
  Delivers lib i (RangeKept userId path storeDir first last i) p Q s

/-- The file is open, and what was sent of it is within the range. -/
def Sending (userId : ℤ) (path storeDir : Text) (first last : ℤ) (i : ι)
    (s : World ι × (ι → Delivery)) : Prop :=
  ∃ e d, Sees i storeDir e d s ∧ Confined userId path storeDir first last d

/-- The file is open and read up to `cur`. -/
def ReadTo (userId : ℤ) (path storeDir : Text) (inode : ℕ) (i : ι) (p cur : ℤ)
    (s : World ι × (ι → Delivery)) : Prop :=
  ∃ d, Sees i storeDir (some inode) d s ∧ Reading userId path storeDir inode p cur d

theorem inRange_sends (hp : first ≤ p) :
    Sends (deliveries ι lib).disturbed (Machine.Disturbance (Unmoved i) (Representable i)) i
      (RangeKept userId path storeDir first last i) (ReadTo userId path storeDir inode i p)
      (Sending userId path storeDir first last i) (last+1) where
  start := by
    rintro o cur s ho hcur ⟨d,hs,hr⟩
    exact ⟨ho,by rw [hs.history]; exact reading_confined hr hp hcur⟩
  sendfile := by
    rintro cur count s c r s' hcount hstop ⟨d,hs,hr⟩ hok hx
    obtain ⟨hw,hx,hdir,hg⟩ := sees_step hs hok hx
    rcases sees_send hw hr hx hdir hg with ⟨rfl,hs'⟩ | ⟨hne,hle,d',hs',hr'⟩
    · exact .inl ⟨rfl,_,d,hs',reading_confined hr hp (by omega)⟩
    · exact .inr ⟨hne,hle,d',hs',hr'⟩
  sendMapped := by
    rintro cur count s c r s' hcount hstop ⟨d,hs,hr⟩ hok hx
    obtain ⟨hw,hx,hdir,hg⟩ := sees_step hs hok hx
    rcases sees_send hw hr (execute_sendMapped hx) hdir hg with ⟨rfl,hs'⟩ | ⟨hne,hle,d',hs',hr'⟩
    · exact .inl ⟨rfl,_,d,hs',reading_confined hr hp (by omega)⟩
    · exact .inr ⟨hne,hle,d',hs',hr'⟩
  mmap := by
    rintro size cur s c r s' _ hcur ⟨d,hs,hr⟩ hok hx
    obtain ⟨hw,hx,hdir,hg⟩ := sees_step hs hok hx
    have hs' := sees_calm rfl hw hx hdir hg
    exact ⟨fun _ => ⟨d,hs',hr⟩,fun _ => ⟨_,d,hs',reading_confined hr hp hcur⟩⟩

theorem idle_confined (hd : d.sends = []) (hrange : first ≤ last+1) :
    Confined userId path storeDir first last d where
  file := fun h => absurd hd h
  run := ⟨first,first,le_rfl,hrange,by rw [hd]; rfl⟩

/-- Whatever offset the client announces, the download stays in its range. -/
theorem sendRange_inRange (arg : Text) (h0 : 0 ≤ first) (hrange : first ≤ last)
    (hlast : last < offMax) (hs : Sees i storeDir (some inode) d s) (hd : d.sends = [])
    (hfile : ∃ fileId sha256sum, d.asked = some (userId,path,fileId) ∧
      d.found = some (fileId,sha256sum) ∧ d.opened = some (storeDir ++ '/'::sha256sum,inode)) :
    InRange lib userId path storeDir first last i (sendRange arg first last)
      (fun _ s' => Sending userId path storeDir first last i s') s := by
  have hconf : Confined userId path storeDir first last d := idle_confined hd (by omega)
  have hG : ∀ o s, o ≠ Op.overflow → Sees i storeDir (some inode) d s →
      RangeKept userId path storeDir first last i o s :=
    fun o s ho hs => ⟨ho,by rw [hs.history]; exact hconf⟩
  have hclose : ∀ s', Sending userId path storeDir first last i s' →
      InRange lib userId path storeDir first last i close
        (fun _ s' => Sending userId path storeDir first last i s') s' := by
    rintro s' ⟨e,d',hs',hc'⟩
    exact delivers_close hs' ⟨by simp,by rw [hs'.history]; exact hc'⟩
      fun s'' hs'' => ⟨_,d',hs'',hc'⟩
  have hspan : offMin ≤ last-first ∧ last-first ≤ offMax := by
    unfold offMin offMax at *
    omega
  have htotal : offMin ≤ last-first+1 ∧ last-first+1 ≤ offMax := by
    unfold offMin offMax at *
    omega
  unfold sendRange
  rw [off_pure hspan.1 hspan.2]
  simp only [Program.pure_eq,Program.ret_bind]
  rw [off_pure htotal.1 htotal.2]
  refine delivers_calm rfl hs (hG _ _ (by simp) hs) fun r s₁ hs₁ => ?_
  cases (r : Bool) with
  | false => exact hclose s₁ ⟨_,d,hs₁,hconf⟩
  | true =>
    refine delivers_calm rfl hs₁ (hG _ _ (by simp) hs₁) fun r s₂ hs₂ => ?_
    cases (r : Option FilePacket) with
    | none => exact hclose s₂ ⟨_,d,hs₂,hconf⟩
    | some packet =>
      obtain ⟨hlo,hhi⟩ := resumeOffset_bounds packet.offset (last-first+1) (by omega)
      have hoff : offMin ≤ resumeOffset packet.offset (last-first+1)+first ∧
          resumeOffset packet.offset (last-first+1)+first ≤ offMax := by
        unfold offMin offMax at *
        omega
      have hend : offMin ≤ last+1 ∧ last+1 ≤ offMax := by
        unfold offMin offMax at *
        omega
      simp only [Program.bind]
      rw [off_pure hoff.1 hoff.2]
      simp only [Program.pure_eq,Program.ret_bind]
      rw [off_pure hend.1 hend.2]
      simp only [Program.pure_eq,Program.ret_bind]
      set p := resumeOffset packet.offset (last-first+1)+first with hp
      have hsend : InRange lib userId path storeDir first last i
          (sendFrom (last-first+1) p (last+1))
          (Ends (ReadTo userId path storeDir inode i p)
            (Sending userId path storeDir first last i) (last+1)) s₂ :=
        sendFrom_sends (inRange_sends (by omega)) hend.2 _ (by omega) (by omega)
          ⟨d,hs₂,hfile,by rw [hd]; rfl⟩
      refine Machine.guarded_bind _ (Machine.guarded_mono _ ?_ hsend)
      rintro (_ | _) s' ⟨hdone,hbroken⟩
      · exact hclose s' (hbroken rfl)
      · obtain ⟨d',hs',hr'⟩ := hdone rfl
        exact hclose s' ⟨_,d',hs',reading_confined hr' (by omega) (by omega)⟩

theorem serveFile_inRange (arg : Text) (h0 : 0 ≤ first) (hrange : first ≤ last)
    (hs : Sees i storeDir (some inode) d s) (hd : d.sends = [])
    (hfile : ∃ fileId sha256sum, d.asked = some (userId,path,fileId) ∧
      d.found = some (fileId,sha256sum) ∧ d.opened = some (storeDir ++ '/'::sha256sum,inode)) :
    InRange lib userId path storeDir first last i (serveFile arg true first last)
      (fun _ s' => Sending userId path storeDir first last i s') s := by
  have hconf : Confined userId path storeDir first last d := idle_confined hd (by omega)
  have hG : ∀ o e s, o ≠ Op.overflow → Sees i storeDir e d s →
      RangeKept userId path storeDir first last i o s :=
    fun o e s ho hs => ⟨ho,by rw [hs.history]; exact hconf⟩
  have hrefuse : ∀ s', Sees i storeDir (some inode) d s' →
      InRange lib userId path storeDir first last i (do close; sendGetsFailedPacket arg)
        (fun _ s' => Sending userId path storeDir first last i s') s' := by
    intro s' hs'
    refine Machine.guarded_bind _ (delivers_close hs' (hG _ _ _ (by simp) hs') fun s₁ hs₁ => ?_)
    exact delivers_calm rfl hs₁ (hG _ _ _ (by simp) hs₁) fun _ s₂ hs₂ => ⟨_,d,hs₂,hconf⟩
  unfold serveFile
  refine delivers_op hs (hG _ _ _ (by simp) hs) fun w c r s₁ hw hok hx hdir hg => ?_
  have hs₁ := sees_calm rfl hw hx hdir hg
  obtain ⟨_,⟨desc,hdesc,_,rfl⟩ | ⟨_,rfl⟩⟩ := execute_fstat hx
  · have hmax := hok rfl desc hdesc
    set size : ℤ := ((w.1.node.store.data desc.inode).length : ℤ) with hsize
    have hend : offMin ≤ size-1 ∧ size-1 ≤ offMax := by
      unfold offMin offMax at *
      omega
    simp only [Program.bind]
    rw [off_pure hend.1 hend.2]
    simp only [Program.pure_eq,Program.ret_bind,if_true]
    split
    · exact hrefuse s₁ hs₁
    · exact sendRange_inRange arg h0 hrange (by omega) hs₁ hd hfile
  · exact hrefuse s₁ hs₁

section Lookups

variable {G : Op → World ι × (ι → Delivery) → Prop} {inode : Option ℕ}

theorem delivers_fileInfoByPath (userId : ℤ) (path : Text) (hs : Sees i storeDir inode d s)
    (hG : ∀ o, o ≠ .overflow → G o s) :
    Delivers lib i G (daoGetFileInfoByPath userId path)
      (fun r s' => ∃ d', Sees i storeDir inode d' s' ∧ d'.sends = d.sends ∧
        ∀ id fileId, r = some (id,fileId) → d'.asked = some (userId,path,fileId)) s := by
  refine delivers_op hs (hG _ (by simp)) fun w c r s₁ hw _ hx hdir hg => ?_
  have hs₁ : Sees i storeDir inode (d.ask userId path r) s₁ := by
    refine ⟨hdir,?_,hg⟩
    rcases execute_sql hx with ⟨_,db,_,he⟩ | ⟨_,_,he⟩ <;> rw [he,← hw.inode]
  rcases (r : Option (ℕ × Option ℕ × ℕ)) with _ | ⟨id,_ | f,type⟩
  · exact ⟨_,hs₁,rfl,nofun⟩
  · exact ⟨_,hs₁,rfl,nofun⟩
  · simp only [Program.bind]
    by_cases ht : type = 0
    · subst ht
      refine ⟨_,hs₁,rfl,fun id' f' h => ?_⟩
      cases h
      rfl
    · rw [if_neg ht]
      refine ⟨_,hs₁,?_,nofun⟩
      unfold Delivery.ask
      split <;> rfl

theorem delivers_fileInfoById (fileId : ℕ) (hs : Sees i storeDir inode d s)
    (hG : ∀ o, o ≠ .overflow → G o s) :
    Delivers lib i G (daoFileGetInfoById fileId)
      (fun r s' => ∃ d', Sees i storeDir inode d' s' ∧ d'.sends = d.sends ∧ d'.asked = d.asked ∧
        ∀ sha256sum size, r = some (sha256sum,size) → d'.found = some (fileId,sha256sum)) s := by
  refine delivers_op hs (hG _ (by simp)) fun w c r s₁ hw _ hx hdir hg => ?_
  have hs₁ : Sees i storeDir inode (d.find fileId r) s₁ := by
    refine ⟨hdir,?_,hg⟩
    rcases execute_sql hx with ⟨_,db,_,he⟩ | ⟨_,_,he⟩ <;> rw [he,← hw.inode]
  rcases (r : Option (Text × ℤ)) with _ | ⟨sha256sum,size⟩
  · exact ⟨_,hs₁,rfl,rfl,nofun⟩
  · refine ⟨_,hs₁,rfl,rfl,fun h size' he => ?_⟩
    cases he
    rfl

theorem delivers_storeFilePath (sha256sum : Text) (hs : Sees i storeDir inode d s)
    (hG : ∀ o, o ≠ .overflow → G o s) :
    Delivers lib i G (buildStoreFilePath sha256sum)
      (fun r s' => Sees i storeDir inode d s' ∧
        ∀ path, r = some path → path = storeDir ++ '/'::sha256sum) s := by
  refine delivers_op hs (hG _ (by simp)) fun w c r s₁ hw _ hx hdir hg => ?_
  have hs₁ := sees_calm rfl hw hx hdir hg
  rcases (execute_storeDir hx).1 with rfl | rfl
  · refine ⟨hs₁,fun path he => ?_⟩
    rw [← (bounded_eq_some.mp he).1,hw.storeDir]
  · exact ⟨hs₁,nofun⟩

theorem delivers_openRead (path : Text) (hs : Sees i storeDir inode d s)
    (hG : ∀ o, o ≠ .overflow → G o s) :
    Delivers lib i G (Program.perform (.openRead path))
      (fun r s' => ∃ e d', Sees i storeDir e d' s' ∧ d'.sends = d.sends ∧ (r = true →
        ∃ n, e = some n ∧ d'.opened = some (path,n) ∧ d'.asked = d.asked ∧ d'.found = d.found)) s := by
  refine delivers_op hs (hG _ (by simp)) fun w c r s₁ hw _ hx hdir hg => ?_
  rcases execute_openRead hx with ⟨n,hn,rfl,he⟩ | ⟨rfl,he⟩
  · have hnote : noteDelivery (.openRead path) true w.1 d = { d with opened := some (path,n) } := by
      simp [noteDelivery,Delivery.openFile,hn]
    refine ⟨some n,_,⟨hdir,?_,hg.trans hnote⟩,rfl,fun _ => ⟨n,rfl,rfl,rfl,rfl⟩⟩
    rw [he]
    simp [Node.setDesc]
  · exact ⟨_,d,⟨hdir,by rw [he,hw.inode],hg⟩,rfl,nofun⟩

end Lookups

theorem handleGetsRange_inRange (ctx : ClientContext) (arg : Text) {inode : Option ℕ}
    (hpath : ∀ full, buildFullVirtualPath fullPathLen ctx arg = some full → full = path)
    (hrange : first ≤ last) (h0 : 0 ≤ first) (hs : Sees i storeDir inode d s) (hd : d.sends = []) :
    InRange lib ctx.userId path storeDir first last i (handleGetsRange ctx arg first last)
      (fun _ s' => Sending ctx.userId path storeDir first last i s') s := by
  have hconf : ∀ d : Delivery, d.sends = [] → Confined ctx.userId path storeDir first last d :=
    fun d hd => idle_confined hd (by omega)
  have hG : ∀ e d s, d.sends = [] → Sees i storeDir e d s → ∀ o, o ≠ Op.overflow →
      RangeKept ctx.userId path storeDir first last i o s :=
    fun e d s hd hs o ho => ⟨ho,by rw [hs.history]; exact hconf d hd⟩
  have hrefuse : ∀ e d s, d.sends = [] → Sees i storeDir e d s →
      InRange lib ctx.userId path storeDir first last i (sendGetsFailedPacket arg)
        (fun _ s' => Sending ctx.userId path storeDir first last i s') s :=
    fun e d s hd hs => delivers_calm rfl hs (hG e d s hd hs _ (by simp))
      fun _ s' hs' => ⟨_,d,hs',hconf d hd⟩
  unfold handleGetsRange handleGetsCommon
  cases hfull : buildFullVirtualPath fullPathLen ctx arg with
  | none => exact hrefuse _ _ _ hd hs
  | some full =>
    obtain rfl : full = path := hpath full hfull
    refine Machine.guarded_bind _ (Machine.guarded_mono _ ?_
      (delivers_fileInfoByPath ctx.userId full hs (hG _ _ _ hd hs)))
    rintro (_ | ⟨id,fileId⟩) s₁ ⟨d₁,hs₁,he₁,hasked⟩
    · exact hrefuse _ _ _ (he₁.trans hd) hs₁
    refine Machine.guarded_bind _ (Machine.guarded_mono _ ?_
      (delivers_fileInfoById fileId hs₁ (hG _ _ _ (he₁.trans hd) hs₁)))
    rintro (_ | ⟨sha256sum,size⟩) s₂ ⟨d₂,hs₂,he₂,ha₂,hfound⟩
    · exact hrefuse _ _ _ (he₂.trans (he₁.trans hd)) hs₂
    have hd₂ : d₂.sends = [] := he₂.trans (he₁.trans hd)
    refine Machine.guarded_bind _ (Machine.guarded_mono _ ?_
      (delivers_storeFilePath sha256sum hs₂ (hG _ _ _ hd₂ hs₂)))
    rintro (_ | realPath) s₃ ⟨hs₃,hreal⟩
    · exact hrefuse _ _ _ hd₂ hs₃
    obtain rfl := hreal realPath rfl
    refine Machine.guarded_bind _ (Machine.guarded_mono _ ?_
      (delivers_openRead _ hs₃ (hG _ _ _ hd₂ hs₃)))
    rintro (_ | _) s₄ ⟨e,d₄,hs₄,he₄,hopened⟩
    · exact hrefuse _ _ _ (he₄.trans hd₂) hs₄
    obtain ⟨n,rfl,ho,ha₄,hf₄⟩ := hopened rfl
    refine serveFile_inRange arg h0 hrange hs₄ (he₄.trans hd₂) ⟨fileId,sha256sum,?_,?_,ho⟩
    · rw [ha₄,ha₂,hasked id fileId rfl]
    · rw [hf₄,hfound sha256sum size rfl]

end Sending

end WindCloud
