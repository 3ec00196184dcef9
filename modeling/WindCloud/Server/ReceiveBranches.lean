import WindCloud.Server.SendLoops
import WindCloud.Server.Usage

/-!
# Two ways to receive an upload

`handle_puts` receives a large file into a mapping of it, at a position it
counts itself, and any other through a buffer with writes at the position the
descriptor keeps. For the same results of `recv` both come to the same end.
-/

set_option autoImplicit false

namespace WindCloud
open CString Effect Function Buffer

/-- The branch of `handle_puts` for large files. -/
def receiveByMapping (ctx : ClientContext) (fullPath fileName : Text) (packet : FilePacket)
    (localSize : ℤ) : Server Unit := do
  if ← perform (.mmap packet.fileSize) then do
    let receivedCount ← receiveMapped localSize (packet.fileSize-localSize)
      (packet.fileSize-localSize).toNat 0
    endUpload ctx fullPath fileName packet localSize receivedCount
  else do
    sendMsg "服务端内存映射失败".toList
    close

/-- The branch for all other files. -/
def receiveByWriting (ctx : ClientContext) (fullPath fileName : Text) (packet : FilePacket)
    (localSize : ℤ) : Server Unit := do
  if ← perform (.lseek localSize) then do
    match ← receiveBuffered (packet.fileSize-localSize) (packet.fileSize-localSize).toNat 0 with
    | none => do
      sendMsg "服务端写入文件失败".toList
      close
    | some receivedCount => endUpload ctx fullPath fileName packet localSize receivedCount
  else do
    sendMsg "服务端定位文件失败".toList
    close

theorem receiveContent_branches (ctx : ClientContext) (fullPath fileName : Text)
    (packet : FilePacket) (localSize : ℤ) :
    receiveContent ctx fullPath fileName packet localSize =
      if largeFileMmapThreshold < packet.fileSize then
        receiveByMapping ctx fullPath fileName packet localSize
      else receiveByWriting ctx fullPath fileName packet localSize := rfl

/-- The server with the results that are still to come: those of `recv`, and
those of the operations behind the reception. -/
structure Feed where
  world : World Unit
  recvs : List Choice
  others : List Choice

namespace Feed

def step (lib : Library) (o : Op) (F : Feed) (c : Choice) : Option (o.Res × Feed) :=
  (execute lib o () F.world c).map fun rs => (rs.1,{ F with world := rs.2 })

def received (lib : Library) (o : Op) (F : Feed) : Option (o.Res × Feed) :=
  match F.recvs with
  | [] => none
  | c::rest => step lib o { F with recvs := rest } c

def reported (lib : Library) (o : Op) (F : Feed) : Option (o.Res × Feed) :=
  match F.others with
  | [] => none
  | c::rest => step lib o { F with others := rest } c

/-- Mapping, positioning and truncating succeed, and a write takes `n` bytes. -/
def exec (lib : Library) : (o : Op) → Feed → ℕ → Option (o.Res × Feed)
  | .recv once, F, _ => F.received lib (.recv once)
  | .recvMapped pos once, F, _ => F.received lib (.recvMapped pos once)
  | .mmap size, F, _ => F.step lib (.mmap size) .ok
  | .lseek pos, F, _ => F.step lib (.lseek pos) .ok
  | .ftruncate size, F, _ => F.step lib (.ftruncate size) .ok
  | .write buf, F, n => F.step lib (.write buf) (.count n)
  | o, F, _ => F.reported lib o

/-- The descriptor moved to `pos`. -/
def seek (F : Feed) (pos : ℕ) : Feed :=
  { F with
    world := F.world.setNode
      (F.world.node.setDesc () ((F.world.node.desc ()).map fun d => { d with pos := pos })) }

end Feed

def feed (lib : Library) : Machine Op Op.Res Unit Feed ℕ := ⟨fun o _ F n => F.exec lib o n⟩

/-- Some run of the program with these results ends as `Q` says. -/
abbrev Attains {α : Type} (lib : Library) (p : Server α) (Q : α → Feed → Prop) (F : Feed) : Prop :=
  (feed lib).can (fun _ _ _ => True) () p Q F

section Rules

variable {lib : Library} {α β : Type} {F F' : Feed}

theorem attains_op {o : Op} {f : o.Res → Server α} {Q : α → Feed → Prop} :
    Attains lib (perform o >>= f) Q F ↔
      ∃ n r F', F.exec lib o n = some (r,F') ∧ Attains lib (f r) Q F' :=
  exists_congr fun _ => exists_congr fun _ => exists_congr fun _ => by
    rw [true_and]
    rfl

theorem attains_bind {p : Server α} {f : α → Server β} {Q : β → Feed → Prop} :
    Attains lib (p >>= f) Q F ↔ Attains lib p (fun a F' => Attains lib (f a) Q F') F :=
  Machine.can_bind p f Q F

theorem attains_determined {o : Op} {f : o.Res → Server α} {Q : α → Feed → Prop} {r : o.Res}
    (hx : ∀ n, F.exec lib o n = some (r,F')) :
    Attains lib (perform o >>= f) Q F ↔ Attains lib (f r) Q F' := by
  rw [attains_op]
  constructor
  · rintro ⟨n,r₁,F₁,h,hf⟩
    obtain ⟨rfl,rfl⟩ := Prod.mk.inj (Option.some.inj ((hx n).symm.trans h))
    exact hf
  · intro hf
    exact ⟨0,r,F',hx 0,hf⟩

theorem attains_stuck {o : Op} {f : o.Res → Server α} {Q : α → Feed → Prop}
    (hx : ∀ n, F.exec lib o n = none) : ¬Attains lib (perform o >>= f) Q F := by
  rw [attains_op]
  rintro ⟨n,r,F',h,_⟩
  rw [hx n] at h
  cases h

end Rules

section Seeking

variable {lib : Library} {α : Type} {F F' : Feed} {pos : ℕ}

@[simp] theorem seek_node (F : Feed) (pos : ℕ) : (F.seek pos).world.node =
    F.world.node.setDesc () ((F.world.node.desc ()).map fun d => { d with pos := pos }) := rfl

@[simp] theorem seek_recvs (F : Feed) (pos : ℕ) : (F.seek pos).recvs = F.recvs := rfl

@[simp] theorem seek_others (F : Feed) (pos : ℕ) : (F.seek pos).others = F.others := rfl

theorem seek_closed (h : F.world.node.desc () = none) (pos : ℕ) : F.seek pos = F := by
  unfold Feed.seek Node.setDesc
  rw [h,Option.map_none,← h,update_eq_self]
  rfl

/-- Operations that never read the position of the descriptor. -/
def Op.unseeked : Op → Bool
  | .sql _ | .configAddress | .send _ | .close | .ftruncate _ => true
  | _ => false

theorem step_seek {o : Op} (ho : o.unseeked = true) (F : Feed) (c : Choice) :
    (F.seek pos).step lib o c = (F.step lib o c).map fun rs => (rs.1,rs.2.seek pos) := by
  cases o <;> first | exact (Bool.false_ne_true ho).elim | skip
  case ftruncate size =>
    cases c <;> try rfl
    unfold Feed.step execute
    cases hd : F.world.node.desc () with
    | none => simp [Node.setDesc,hd]
    | some d =>
      by_cases hs : 0 ≤ size
      · simp [Node.setDesc,hd,hs,Feed.seek,World.setNode,Node.resize]
      · simp [Node.setDesc,hd,hs,Feed.seek,World.setNode]
  all_goals cases c <;> rfl

theorem exec_seek {o : Op} (ho : o.unseeked = true) (F : Feed) (pos n : ℕ) :
    (F.seek pos).exec lib o n = (F.exec lib o n).map fun rs => (rs.1,rs.2.seek pos) := by
  have hreported : (F.seek pos).reported lib o =
      (F.reported lib o).map fun rs => (rs.1,rs.2.seek pos) := by
    unfold Feed.reported
    rw [seek_others]
    cases F.others with
    | nil => rfl
    | cons c rest => exact step_seek ho { F with others := rest } c
  cases o <;> first | exact (Bool.false_ne_true ho).elim | exact hreported | skip
  case ftruncate size => exact step_seek ho F .ok

theorem attains_seek {p : Server α} (hp : p.Uses fun o => o.unseeked = true)
    {Q : α → Feed → Prop} :
    Attains lib p Q (F.seek pos) ↔ Attains lib p (fun a G => Q a (G.seek pos)) F := by
  induction p generalizing F with
  | ret a => exact Iff.rfl
  | op o k ih =>
    have hx := @exec_seek lib o hp.1 F pos
    constructor
    · rintro ⟨n,r,F₁,hok,h,hk⟩
      have h' : (F.seek pos).exec lib o n = some (r,F₁) := h
      rw [hx n] at h'
      obtain ⟨⟨r₁,G⟩,hG,he⟩ := Option.map_eq_some_iff.mp h'
      obtain ⟨rfl,rfl⟩ := Prod.mk.inj he
      exact ⟨n,r₁,G,hok,hG,(ih r₁ (hp.2 r₁)).mp hk⟩
    · rintro ⟨n,r,G,hok,h,hk⟩
      have h' : F.exec lib o n = some (r,G) := h
      refine ⟨n,r,G.seek pos,hok,?_,(ih r (hp.2 r)).mpr hk⟩
      have hs : (F.seek pos).exec lib o n = some (r,G.seek pos) := by
        rw [hx n,h']
        rfl
      exact hs

end Seeking

section Writing

variable {lib : Library} {α : Type} {F : Feed} {d : Descriptor}

/-- Bytes appended at the position of the descriptor. -/
def Feed.written (F : Feed) (d : Descriptor) (bs : Content) : Feed :=
  { F with world := F.world.setNode (F.world.node.append () d bs) }

theorem written_written (hpos : d.pos ≤ (F.world.node.store.data d.inode).length)
    (bs cs : Content) :
    (F.written d bs).written { d with pos := d.pos+bs.length } cs = F.written d (bs ++ cs) := by
  have hsplice := splice_splice '\x00' (F.world.node.store.data d.inode) hpos bs cs
  simp [Feed.written,World.setNode,Node.append,Inodes.modify,hsplice,Nat.add_assoc]

theorem written_nil (hd : F.world.node.desc () = some d)
    (hpos : d.pos ≤ (F.world.node.store.data d.inode).length) : F.written d [] = F := by
  have hdesc : update F.world.node.desc () (some d) = F.world.node.desc := by
    rw [← hd,update_eq_self]
  simp [Feed.written,World.setNode,Node.append,Inodes.modify,splice_nil _ _ hpos,hdesc]

theorem written_room (F : Feed) (d : Descriptor) (bs : Content) :
    d.pos+bs.length ≤ ((F.written d bs).world.node.store.data d.inode).length := by
  simp [Feed.written,Node.append,splice_length]

theorem attains_writeFileFull {buf : Content} {passes total : ℕ} {Q : Bool → Feed → Prop}
    (hp : buf.length ≤ passes+total) (hd : F.world.node.desc () = some d)
    (hpos : d.pos ≤ (F.world.node.store.data d.inode).length) :
    Attains lib (writeFileFull buf passes total) Q F ↔ Q true (F.written d (buf.drop total)) := by
  induction passes generalizing total F d with
  | zero =>
    rw [List.drop_of_length_le (by omega),written_nil hd hpos]
    exact Iff.rfl
  | succ passes ih =>
    unfold writeFileFull
    split
    · rename_i hlt
      have hlen : (buf.drop total).length = buf.length-total := List.length_drop
      have hwrite : ∀ n, 0 < n → n ≤ (buf.drop total).length →
          F.exec lib (.write (buf.drop total)) n =
            some (n,F.written d ((buf.drop total).take n)) := by
        intro n h0 hn
        simp only [Feed.exec,Feed.step,execute,hd,if_pos (And.intro h0 hn)]
        rfl
      have hrest : ∀ n, n ≤ (buf.drop total).length →
          (F.written d ((buf.drop total).take n)).written { d with pos := d.pos+n }
            (buf.drop (total+n)) = F.written d (buf.drop total) := by
        intro n hn
        have htake : ((buf.drop total).take n).length = n := List.length_take_of_le hn
        have h := written_written hpos ((buf.drop total).take n) (buf.drop (total+n))
        rw [htake,← List.drop_drop,List.take_append_drop] at h
        rwa [← List.drop_drop]
      have hnext : ∀ n, 0 < n → n ≤ (buf.drop total).length →
          (Attains lib (writeFileFull buf passes (total+n)) Q
              (F.written d ((buf.drop total).take n)) ↔
            Q true (F.written d (buf.drop total))) := by
        intro n h0 hn
        have htake : ((buf.drop total).take n).length = n := List.length_take_of_le hn
        have hroom := written_room F d ((buf.drop total).take n)
        rw [htake] at hroom
        have hdesc : (F.written d ((buf.drop total).take n)).world.node.desc () =
            some { d with pos := d.pos+n } := by
          simp [Feed.written,Node.append,htake]
        rw [ih (by omega) hdesc hroom,hrest n hn]
      rw [attains_op]
      constructor
      · rintro ⟨n,r,F₁,hx,hf⟩
        by_cases hn : 0 < n ∧ n ≤ (buf.drop total).length
        · obtain ⟨rfl,rfl⟩ := Prod.mk.inj (Option.some.inj ((hwrite n hn.1 hn.2).symm.trans hx))
          rw [if_neg (Nat.pos_iff_ne_zero.mp hn.1)] at hf
          exact (hnext n hn.1 hn.2).mp hf
        · simp only [Feed.exec,Feed.step,execute,hd,if_neg hn] at hx
          cases hx
      · intro hq
        have h0 : 0 < (buf.drop total).length := by omega
        refine ⟨_,_,_,hwrite _ h0 le_rfl,?_⟩
        rw [if_neg (Nat.pos_iff_ne_zero.mp h0)]
        exact (hnext _ h0 le_rfl).mpr hq
    · rw [List.drop_of_length_le (by omega),written_nil hd hpos]
      exact Iff.rfl

end Writing

section Receiving

variable {lib : Library} {F : Feed} {d : Descriptor}

structure Stretched (F : Feed) (size : ℕ) (d : Descriptor) : Prop where
  desc : F.world.node.desc () = some d
  size : (F.world.node.store.data d.inode).length = size

/-- `n` bytes received into the mapping at `pos`. -/
def Feed.absorbed (F : Feed) (d : Descriptor) (pos n : ℕ) : Feed :=
  { F with
    world := F.world.setNode ((F.world.node.patch d pos
      ((F.world.node.conn ()).stream.take n)).consume () n) }

def Feed.consumed (F : Feed) (n : ℕ) : Feed :=
  { F with world := F.world.setNode (F.world.node.consume () n) }

theorem absorbed_stretched {size : ℕ} (h : Stretched F size d) {pos n : ℕ} (hfit : pos+n ≤ size)
    (hn : n ≤ (F.world.node.conn ()).stream.length) : Stretched (F.absorbed d pos n) size d := by
  refine ⟨h.desc,?_⟩
  have htake : ((F.world.node.conn ()).stream.take n).length = n := List.length_take_of_le hn
  have hpatch := patch_eq_splice '\x00' (F.world.node.store.data d.inode) pos
    ((F.world.node.conn ()).stream.take n) (by rw [htake,h.size]; exact hfit)
  simp [Feed.absorbed,World.setNode,Node.consume,Node.setConn,Node.patch,hpatch,splice_length,htake,
    h.size,hfit]

theorem written_absorbed {size : ℕ} (h : Stretched F size d) {pos n : ℕ} (hfit : pos+n ≤ size)
    (hn : n ≤ (F.world.node.conn ()).stream.length) :
    ((F.seek pos).consumed n).written { d with pos := pos } ((F.world.node.conn ()).stream.take n) =
      (F.absorbed d pos n).seek (pos+n) := by
  have htake : ((F.world.node.conn ()).stream.take n).length = n := List.length_take_of_le hn
  have hpatch := patch_eq_splice '\x00' (F.world.node.store.data d.inode) pos
    ((F.world.node.conn ()).stream.take n) (by rw [htake,h.size]; exact hfit)
  simp [Feed.seek,Feed.consumed,Feed.written,Feed.absorbed,World.setNode,Node.consume,Node.setConn,
    Node.patch,Node.append,Node.setDesc,Inodes.modify,h.desc,hpatch,htake]

theorem received_mapped {rest : List Choice} {pos : ℕ} {count : ℤ} (hd : F.world.node.desc () = some d)
    (n : ℕ) (hr : F.recvs = .count n::rest) (h0 : 0 < n) (h1 : (n:ℤ) ≤ count)
    (h2 : n ≤ (F.world.node.conn ()).stream.length) :
    F.received lib (.recvMapped pos count) =
      some (n,({ F with recvs := rest }).absorbed d pos n) := by
  simp only [Feed.received,hr,Feed.step,execute,hd,if_pos (And.intro h0 (And.intro h1 h2))]
  rfl

theorem received_buffer {rest : List Choice} {count : ℤ} (n : ℕ) (hr : F.recvs = .count n::rest)
    (h0 : 0 < n) (h1 : (n:ℤ) ≤ count) (h2 : n ≤ (F.world.node.conn ()).stream.length) :
    F.received lib (.recv count) =
      some ((F.world.node.conn ()).stream.take n,({ F with recvs := rest }).consumed n) := by
  simp only [Feed.received,hr,Feed.step,execute,if_pos (And.intro h0 (And.intro h1 h2))]
  rfl

/-- The two receive loops, told the same results, come to the same count, the
one with the descriptor where it was and the other with it behind the bytes. -/
theorem attains_loops {localSize remaining passes k : ℕ} {Q : Option ℕ → Feed → Prop}
    (hk : k ≤ remaining) (h : Stretched F (localSize+remaining) d) :
    Attains lib (receiveMapped localSize remaining passes k)
        (fun k' G => Q (some k') (G.seek (localSize+k'))) F ↔
      Attains lib (receiveBuffered remaining passes k) Q (F.seek (localSize+k)) := by
  induction passes generalizing k F with
  | zero => exact Iff.rfl
  | succ passes ih =>
    unfold receiveMapped receiveBuffered
    by_cases hlt : (k:ℤ) < remaining
    · rw [if_pos hlt,if_pos hlt]
      have honce := once_bounds hlt
      cases hr : F.recvs with
      | nil =>
        have hm : ∀ n, F.exec lib (.recvMapped (localSize+k) (once remaining k)) n = none := by
          intro n
          simp only [Feed.exec,Feed.received,hr]
        have hb : ∀ n, (F.seek (localSize+k)).exec lib (.recv (once remaining k)) n = none := by
          intro n
          simp only [Feed.exec,Feed.received,seek_recvs,hr]
        exact iff_of_false (attains_stuck hm) (attains_stuck hb)
      | cons c rest =>
        by_cases hc : ∃ n : ℕ, c = .count n ∧ 0 < n ∧ (n:ℤ) ≤ once remaining k ∧
            n ≤ (F.world.node.conn ()).stream.length
        · obtain ⟨n,rfl,h0,h1,h2⟩ := hc
          have htake : ((F.world.node.conn ()).stream.take n).length = n := List.length_take_of_le h2
          have hne : (F.world.node.conn ()).stream.take n ≠ [] := by
            intro hnil
            rw [hnil] at htake
            exact absurd htake h0.ne
          have hfit : localSize+k+n ≤ localSize+remaining := by omega
          have hto : ((localSize:ℤ)+k) = ((localSize+k : ℕ):ℤ) := by omega
          have hmapped : ∀ m, F.exec lib (.recvMapped (localSize+k) (once remaining k)) m =
              some (n,({ F with recvs := rest }).absorbed d (localSize+k) n) := by
            intro m
            rw [hto]
            exact received_mapped h.desc n hr h0 h1 h2
          have hbuffer : ∀ m, (F.seek (localSize+k)).exec lib (.recv (once remaining k)) m =
              some ((F.world.node.conn ()).stream.take n,
                ((({ F with recvs := rest } : Feed).seek (localSize+k)).consumed n)) :=
            fun m => received_buffer n hr h0 h1 h2
          have hopen : Stretched { F with recvs := rest } (localSize+remaining) d := ⟨h.desc,h.size⟩
          rw [attains_determined hmapped,attains_determined hbuffer,if_neg h0.ne',if_neg hne,
            attains_bind]
          rw [attains_writeFileFull (d := { d with pos := localSize+k }) (by omega)
            (by simp [Feed.consumed,Node.consume,Node.setConn,Node.setDesc,h.desc])
            (by
              have hsize := h.size
              simp [Feed.consumed,Node.consume,Node.setConn,Node.setDesc,hsize]
              omega)]
          rw [List.drop_zero,if_pos rfl,htake,written_absorbed hopen hfit h2,Nat.add_assoc]
          exact ih (by omega) (absorbed_stretched hopen hfit h2)
        by_cases hfault : c = .fault
        · subst hfault
          have hmapped : ∀ m, F.exec lib (.recvMapped (localSize+k) (once remaining k)) m =
              some ((0:ℕ),{ F with recvs := rest }) := by
            intro m
            simp only [Feed.exec,Feed.received,hr,Feed.step,execute,Option.map_some]
          have hbuffer : ∀ m, (F.seek (localSize+k)).exec lib (.recv (once remaining k)) m =
              some (([]:Content),({ F with recvs := rest } : Feed).seek (localSize+k)) := by
            intro m
            simp only [Feed.exec,Feed.received,seek_recvs,hr,Feed.step,execute,Option.map_some]
            rfl
          rw [attains_determined hmapped,attains_determined hbuffer,if_pos rfl,if_pos rfl]
          exact Iff.rfl
        · have hmapped : ∀ m, F.exec lib (.recvMapped (localSize+k) (once remaining k)) m = none := by
            intro m
            cases c <;> simp [Feed.exec,Feed.received,hr,Feed.step,execute,h.desc] at hc hfault ⊢
            exact hc
          have hbuffer : ∀ m, (F.seek (localSize+k)).exec lib (.recv (once remaining k)) m = none := by
            intro m
            cases c <;> simp [Feed.exec,Feed.received,hr,Feed.step,execute] at hc hfault ⊢
            exact if_neg fun hn => Nat.not_lt.mpr hn.2.2 (hc hn.1 hn.2.1)
          exact iff_of_false (attains_stuck hmapped) (attains_stuck hbuffer)
    · rw [if_neg hlt,if_neg hlt]
      exact Iff.rfl

end Receiving

section Branches

variable {lib : Library} {F : Feed} {d : Descriptor} {ctx : ClientContext} {fullPath fileName : Text}
  {packet : FilePacket} {localSize : ℕ}

theorem endUpload_unseeked (localSize : ℤ) (receivedCount : ℕ) :
    (endUpload ctx fullPath fileName packet localSize receivedCount).Uses
      fun o => o.unseeked = true := by
  unfold endUpload
  split
  · exact ⟨rfl,fun _ => ⟨rfl,fun _ => ⟨rfl,fun _ => trivial⟩⟩⟩
  · exact completeUpload_uses (fun o => o.unseeked = true) (fun _ _ => rfl) rfl (fun _ => rfl) rfl
      (fun _ => rfl) _

theorem close_closes {α : Type} (p : Server α) (F : Feed) :
    (feed lib).wlp (fun _ _ _ => True) () (p >>= fun _ => close)
      (fun _ G => G.world.node.desc () = none) F := by
  refine (Machine.wlp_bind p _ _ F).mpr ?_
  have hlast : ∀ G : Feed, (feed lib).wlp (fun _ _ _ => True) () close
      (fun _ G => G.world.node.desc () = none) G := by
    intro G n r G' _ hx
    have hx' : G.reported lib .close = some (r,G') := hx
    unfold Feed.reported at hx'
    split at hx'
    · cases hx'
    · obtain ⟨⟨r₁,w⟩,he,heq⟩ := Option.map_eq_some_iff.mp hx'
      obtain ⟨rfl,rfl⟩ := Prod.mk.inj heq
      obtain rfl := execute_close he
      exact update_self () none G.world.node.desc
  induction p generalizing F with
  | ret a => exact hlast F
  | op o k ih => exact fun _ r G _ _ => ih r G

theorem endUpload_closes (localSize : ℤ) (receivedCount : ℕ) (F : Feed) :
    (feed lib).wlp (fun _ _ _ => True) ()
      (endUpload ctx fullPath fileName packet localSize receivedCount)
      (fun _ G => G.world.node.desc () = none) F := by
  unfold endUpload
  split
  · exact close_closes (perform (.ftruncate (localSize+receivedCount)) >>= fun _ =>
      sendMsg "传输中断，已保存当前进度。".toList) F
  · refine (Machine.wlp_bind _ _ _ F).mpr ?_
    refine Machine.wlp_mono F (fun done G _ => ?_) (Machine.wlp_true _ F)
    cases done <;> exact close_closes (sendMsg _) G

/-- Where the descriptor stood does not matter for the end of an upload. -/
theorem attains_endUpload {receivedCount pos : ℕ} {Q : Unit → Feed → Prop} :
    Attains lib (endUpload ctx fullPath fileName packet localSize receivedCount) Q (F.seek pos) ↔
      Attains lib (endUpload ctx fullPath fileName packet localSize receivedCount) Q F := by
  rw [attains_seek (endUpload_unseeked _ _)]
  have hclosed := @endUpload_closes lib ctx fullPath fileName packet localSize receivedCount F
  constructor
  · intro h
    refine Machine.can_mono F ?_ (Machine.can_wlp h hclosed)
    rintro a G ⟨hq,hc⟩
    rwa [seek_closed hc] at hq
  · intro h
    refine Machine.can_mono F ?_ (Machine.can_wlp h hclosed)
    rintro a G ⟨hq,hc⟩
    rwa [seek_closed hc]

/-- The state in which `handle_puts` begins to receive: the store file holds
`held`, extended to the size of the upload. -/
structure Extended (F : Feed) (held : Content) (fileSize : ℤ) (d : Descriptor) : Prop where
  desc : F.world.node.desc () = some d
  content : F.world.node.store.data d.inode = resize '\x00' held fileSize.toNat
  short : (held.length:ℤ) < fileSize

variable {held : Content}

theorem attains_branches (h : Extended F held packet.fileSize d) (Q : Unit → Feed → Prop) :
    Attains lib (receiveByMapping ctx fullPath fileName packet held.length) Q F ↔
      Attains lib (receiveByWriting ctx fullPath fileName packet held.length) Q F := by
  have hshort := h.short
  obtain ⟨remaining,hremaining⟩ : ∃ n : ℕ, packet.fileSize-held.length = n :=
    ⟨(packet.fileSize-held.length).toNat,by omega⟩
  have hsize : Stretched F (held.length+remaining) d := by
    refine ⟨h.desc,?_⟩
    rw [h.content,resize_length]
    omega
  have hmmap : ∀ n, F.exec lib (.mmap packet.fileSize) n = some (true,F) := by
    intro n
    simp only [Feed.exec,Feed.step,execute,Option.map_some]
    rw [decide_eq_true (by omega : 0 < packet.fileSize)]
  have hlseek : ∀ n, F.exec lib (.lseek held.length) n = some (true,F.seek held.length) := by
    intro n
    have h0 : (0:ℤ) ≤ held.length := Int.natCast_nonneg _
    simp only [Feed.exec,Feed.step,execute,h.desc,Option.map_some,if_pos h0,Int.toNat_natCast]
    simp only [Feed.seek,h.desc,Option.map_some]
  unfold receiveByMapping receiveByWriting
  rw [attains_determined hmmap,attains_determined hlseek,if_pos rfl,if_pos rfl,attains_bind,
    attains_bind,hremaining,Int.toNat_natCast]
  refine Iff.trans ?_ (attains_loops (k := 0) (Nat.zero_le _) hsize)
  have hend : ∀ (k : ℕ) (G : Feed),
      Attains lib (endUpload ctx fullPath fileName packet held.length k) Q (G.seek (held.length+k)) ↔
        Attains lib (endUpload ctx fullPath fileName packet held.length k) Q G :=
    fun k G => attains_endUpload
  constructor
  · exact Machine.can_mono F fun k G hq => (hend k G).mpr hq
  · exact Machine.can_mono F fun k G hq => (hend k G).mp hq

end Branches

section Content

variable {lib : Library} {F G : Feed} {d : Descriptor} {ctx : ClientContext} {fullPath fileName : Text}
  {packet : FilePacket} {held : Content}

/-- The bytes the results of `recv` amount to. -/
def delivered : List Choice → ℕ
  | [] => 0
  | .count n::recvs => n+delivered recvs
  | _::recvs => delivered recvs

theorem delivered_append (recvs recvs' : List Choice) :
    delivered (recvs ++ recvs') = delivered recvs+delivered recvs' := by
  induction recvs with
  | nil => simp [delivered]
  | cons x recvs ih => cases x <;> simp [delivered,ih,Nat.add_assoc]

/-- `k` bytes have been received, all of them from the schedule's beginning. -/
structure Received (F : Feed) (size k : ℕ) (G : Feed) : Prop where
  used : ∃ used, F.recvs = used ++ G.recvs ∧ delivered used = k
  fits : k ≤ size
  there : k ≤ (F.world.node.conn ()).stream.length

/-- They lie in the extended file behind what was there. -/
structure Placed (F : Feed) (held : Content) (d : Descriptor) (remaining k : ℕ) (G : Feed) : Prop
    extends Received F remaining k G where
  desc : G.world.node.desc () = some d
  stream : (G.world.node.conn ()).stream = (F.world.node.conn ()).stream.drop k
  content : G.world.node.store.data d.inode =
    resize '\x00' (held ++ (F.world.node.conn ()).stream.take k) (held.length+remaining)

theorem patch_resize {f bs : Content} {size : ℕ} (h : f.length+bs.length ≤ size) :
    patch (resize '\x00' f size) f.length bs = resize '\x00' (f ++ bs) size := by
  rw [patch_eq_splice '\x00' _ _ _ (by rw [resize_length]; exact h)]
  have hf : f.take size = f := List.take_of_length_le (by omega)
  have hfb : (f ++ bs).take size = f ++ bs := List.take_of_length_le (by rw [List.length_append]; omega)
  rw [splice,resize_shrink _ _ _ (by rw [resize_length]; omega),resize,resize,hf,hfb,
    List.take_left,List.drop_append,List.drop_of_length_le (by omega),List.nil_append,
    List.drop_replicate,List.append_assoc,List.append_assoc,List.length_append]
  congr 3
  omega

theorem placed_absorbed {remaining k n : ℕ} {rest : List Choice}
    (h : Placed F held d remaining k G) (hr : G.recvs = .count n::rest) (hfit : k+n ≤ remaining)
    (hn : n ≤ (G.world.node.conn ()).stream.length) :
    Placed F held d remaining (k+n)
      (({ G with recvs := rest } : Feed).absorbed d (held.length+k) n) := by
  have hlen : k+n ≤ (F.world.node.conn ()).stream.length := by
    rw [h.stream,List.length_drop] at hn
    have := h.there
    omega
  constructor
  · obtain ⟨used,hused,hk⟩ := h.used
    refine ⟨⟨used ++ [.count n],?_,?_⟩,hfit,hlen⟩
    · rw [hused,hr]
      simp [Feed.absorbed]
    · simp [delivered_append,delivered,← hk]
  · exact h.desc
  · simp [Feed.absorbed,World.setNode,Node.consume,Node.setConn,Node.patch,h.stream]
  · have htake : ((F.world.node.conn ()).stream.take k).length = k := List.length_take_of_le h.there
    have hbs : (G.world.node.conn ()).stream.take n =
        ((F.world.node.conn ()).stream.drop k).take n := by rw [h.stream]
    have hpatch := @patch_resize (held ++ (F.world.node.conn ()).stream.take k)
      (((F.world.node.conn ()).stream.drop k).take n) (held.length+remaining)
      (by rw [List.length_append,htake,List.length_take,List.length_drop]; omega)
    rw [List.length_append,htake,List.append_assoc,← List.take_add] at hpatch
    simp only [Feed.absorbed,World.setNode,Node.consume,Node.setConn,Node.patch,Inodes.modify_data,
      update_self,h.content]
    rw [hbs,hpatch]

abbrev Always (lib : Library) {α : Type} (p : Server α) (Q : α → Feed → Prop) (F : Feed) : Prop :=
  (feed lib).wlp (fun _ _ _ => True) () p Q F

theorem always_op {α : Type} {o : Op} {f : o.Res → Server α} {Q : α → Feed → Prop}
    (h : ∀ n r G', G.exec lib o n = some (r,G') → Always lib (f r) Q G') :
    Always lib (perform o >>= f) Q G :=
  fun n r G' _ hx => h n r G' hx

theorem placed_receiveMapped {remaining passes k : ℕ} (h : Placed F held d remaining k G) :
    Always lib (receiveMapped held.length remaining passes k)
      (fun k' G' => Placed F held d remaining k' G') G := by
  induction passes generalizing k G with
  | zero => exact h
  | succ passes ih =>
    unfold receiveMapped
    split
    · rename_i hlt
      have honce := once_bounds hlt
      refine always_op (o := .recvMapped _ _) fun _ (r : ℕ) G' hx => ?_
      simp only [Feed.exec,Feed.received] at hx
      split at hx
      · cases hx
      rename_i c rest hr
      obtain ⟨⟨(n : ℕ),w⟩,he,heq⟩ := Option.map_eq_some_iff.mp hx
      obtain ⟨rfl,rfl⟩ := Prod.mk.inj heq
      rcases execute_recvMapped he with ⟨d',hd',h0,h1,h2,rfl⟩ | ⟨rfl,rfl,rfl⟩
      · obtain rfl : d' = d := Option.some.inj (hd'.symm.trans h.desc)
        have hc : c = .count n := by
          cases c <;> simp [execute] at he <;> grind
        subst hc
        have hto : ((held.length:ℤ)+k).toNat = held.length+k := by omega
        have hfit : k+n ≤ remaining := by
          have h1' : (n:ℤ) ≤ once remaining k := h1
          omega
        rw [if_neg (Nat.pos_iff_ne_zero.mp h0),hto]
        exact ih (placed_absorbed h hr hfit h2)
      · rw [if_pos rfl]
        obtain ⟨used,hused,hk⟩ := h.used
        refine ⟨⟨⟨used ++ [.fault],?_,?_⟩,h.fits,h.there⟩,h.desc,h.stream,h.content⟩
        · rw [hused,hr]
          simp
        · simp [delivered_append,delivered,← hk]
    · exact h

/-- Operations behind the reception that leave the store alone. -/
def Op.behind (o : Op) : Prop := o.idle = true ∧ o.unseeked = true

theorem reported_behind {α : Type} {p : Server α} (hp : p.Uses Op.behind) :
    Always lib p (fun _ G' => G'.recvs = G.recvs ∧
      G'.world.node.store = G.world.node.store) G := by
  induction p generalizing G with
  | ret a => exact ⟨rfl,rfl⟩
  | op o k ih =>
    intro n r G₁ _ hx
    have hx' : G.reported lib o = some (r,G₁) := by
      obtain ⟨⟨hidle,hun⟩,_⟩ := hp
      cases o <;> first | exact (Bool.false_ne_true hun).elim | exact hx | skip
      case ftruncate size => exact (Bool.false_ne_true hidle).elim
    unfold Feed.reported at hx'
    split at hx'
    · cases hx'
    obtain ⟨⟨r₁,w⟩,he,heq⟩ := Option.map_eq_some_iff.mp hx'
    obtain ⟨rfl,rfl⟩ := Prod.mk.inj heq
    refine Machine.wlp_mono _ ?_ (ih r₁ (hp.2 r₁))
    rintro _ G₂ ⟨hrecvs,hstore⟩
    exact ⟨hrecvs,hstore.trans (execute_idle hp.1.1 he).1⟩

/-- What was there, and what was received behind it; nothing else. -/
structure Landed (F : Feed) (held : Content) (d : Descriptor) (remaining k : ℕ) (G : Feed) : Prop
    extends Received F remaining k G where
  content : G.world.node.store.data d.inode = held ++ (F.world.node.conn ()).stream.take k

theorem landed_behind {α : Type} {p : Server α} (hp : p.Uses Op.behind) {remaining k : ℕ}
    (h : Landed F held d remaining k G) :
    Always lib p (fun _ G' => ∃ k, Landed F held d remaining k G') G := by
  refine Machine.wlp_mono _ ?_ (reported_behind hp)
  rintro _ G' ⟨hrecvs,hstore⟩
  obtain ⟨used,hused,hk⟩ := h.used
  exact ⟨k,⟨⟨used,by rw [hused,hrecvs],hk⟩,h.fits,h.there⟩,by rw [hstore,h.content]⟩

theorem placed_length {remaining k : ℕ} (h : Placed F held d remaining k G) :
    (held ++ (F.world.node.conn ()).stream.take k).length = held.length+k := by
  rw [List.length_append,List.length_take_of_le h.there]

theorem landed_endUpload {remaining k : ℕ} (hsize : packet.fileSize-held.length = remaining)
    (h : Placed F held d remaining k G) :
    Always lib (endUpload ctx fullPath fileName packet held.length k)
      (fun _ G' => ∃ k, Landed F held d remaining k G') G := by
  have hlen := placed_length h
  have hfits := h.fits
  unfold endUpload
  split
  · rename_i hlt
    refine always_op (o := .ftruncate _) fun _ r G₁ hx => ?_
    obtain ⟨⟨_,w⟩,he,heq⟩ := Option.map_eq_some_iff.mp hx
    obtain ⟨rfl,rfl⟩ := Prod.mk.inj heq
    have hreply : (sendMsg "传输中断，已保存当前进度。".toList >>= fun _ => close).Uses Op.behind :=
      ⟨⟨rfl,rfl⟩,fun _ => ⟨⟨rfl,rfl⟩,fun _ => trivial⟩⟩
    refine landed_behind hreply (k := k) ⟨⟨h.used,h.fits,h.there⟩,?_⟩
    rcases execute_ftruncate he with ⟨d',hd',_,_,_,rfl⟩ | ⟨_,hneg,_⟩ | ⟨hfault,_⟩
    · obtain rfl : d' = d := Option.some.inj (hd'.symm.trans h.desc)
      have hto : ((held.length:ℤ)+k).toNat = held.length+k := by omega
      simp only [setNode_node,Node.resize,Inodes.modify_data,update_self,h.content,hto]
      rw [resize_shrink _ _ _ (by rw [resize_length]; omega),resize,List.take_append_of_le_length
        (by rw [List.length_take,hlen]; omega),List.take_take,Nat.min_eq_left (by omega),
        List.take_of_length_le (by omega)]
    · exact absurd hneg (by omega)
    · cases hfault
  · rename_i hge
    have hk : k = remaining := by omega
    refine landed_behind (completeUpload_uses Op.behind (fun _ _ => ⟨rfl,rfl⟩) ⟨rfl,rfl⟩
      (fun _ => ⟨rfl,rfl⟩) ⟨rfl,rfl⟩ (fun _ => ⟨rfl,rfl⟩) _) ⟨⟨h.used,h.fits,h.there⟩,?_⟩
    rw [h.content,resize,List.take_of_length_le (by omega),hlen,hk]
    simp

theorem landed_receiveByMapping (h : Extended F held packet.fileSize d) :
    Always lib (receiveByMapping ctx fullPath fileName packet held.length)
      (fun _ G => ∃ k, Landed F held d (packet.fileSize-held.length).toNat k G) F := by
  have hshort := h.short
  obtain ⟨remaining,hremaining⟩ : ∃ n : ℕ, packet.fileSize-held.length = n :=
    ⟨(packet.fileSize-held.length).toNat,by omega⟩
  rw [hremaining,Int.toNat_natCast]
  have hplaced : Placed F held d remaining 0 F := by
    refine ⟨⟨⟨[],rfl,rfl⟩,Nat.zero_le _,Nat.zero_le _⟩,h.desc,rfl,?_⟩
    rw [h.content,List.take_zero,List.append_nil]
    congr 1
    omega
  unfold receiveByMapping
  refine always_op (o := .mmap _) fun _ r G hx => ?_
  obtain ⟨rfl,rfl⟩ := Prod.mk.inj (Option.some.inj hx)
  rw [if_pos (decide_eq_true (by omega : 0 < packet.fileSize)),hremaining,Int.toNat_natCast]
  refine (Machine.wlp_bind _ _ _ _).mpr ?_
  exact Machine.wlp_mono _ (fun _ _ => landed_endUpload hremaining) (placed_receiveMapped hplaced)

end Content

/-- For the same results of `recv` both branches come to the same ends: one
store, one database and the same packets sent. The file is then what it was with
the received bytes behind it. -/
theorem receive_branches_agree (lib : Library) (ctx : ClientContext) (fullPath fileName : Text)
    (packet : FilePacket) (held : Content) (d : Descriptor) (F : Feed)
    (h : Extended F held packet.fileSize d) :
    (∀ G, Attains lib (receiveByMapping ctx fullPath fileName packet held.length)
        (fun _ G' => G' = G) F ↔
      Attains lib (receiveByWriting ctx fullPath fileName packet held.length)
        (fun _ G' => G' = G) F) ∧
    ∀ G, Attains lib (receiveByMapping ctx fullPath fileName packet held.length)
        (fun _ G' => G' = G) F →
      ∃ k, Landed F held d (packet.fileSize-held.length).toNat k G := by
  constructor
  · intro G
    exact attains_branches h _
  · intro G hG
    obtain ⟨cs,u,G',hx,rfl,hk⟩ := Machine.can_exec (Machine.can_wlp hG (landed_receiveByMapping h))
    exact hk

namespace SmallUpload

def lib : Library := ⟨fun _ => [],fun _ => none,fun _ _ _ _ _ => none⟩

def world : World Unit where
  db := Db.empty
  minted := []
  drawn := []
  node :=
    { storeDir := "../test/server_files".toList
      address := ("127.0.0.1".toList,"9090".toList)
      store := (Inodes.empty []).create "a".toList (resize '\x00' "ab".toList 5)
      desc := fun _ => some ⟨0,0,true⟩
      conn := fun _ => ⟨[],⟨.puts,5,0,[],[]⟩,fun _ => [],"cde".toList,[]⟩
      tickets := .zero
      unlinked := [] }

def packet : FilePacket := ⟨.puts,5,2,"a".toList,[]⟩

/-- The connection breaks behind two of the three bytes. -/
def broken : Feed := ⟨world,[.count 1,.count 1,.fault],[.ok,.ok]⟩

end SmallUpload

open SmallUpload in
theorem broken_reception_agrees : ∃ G : Feed,
    Attains lib (receiveByMapping ⟨1,"/".toList,0⟩ "/a".toList "a".toList packet 2)
        (fun _ G' => G' = G) broken ∧
      Attains lib (receiveByWriting ⟨1,"/".toList,0⟩ "/a".toList "a".toList packet 2)
        (fun _ G' => G' = G) broken ∧
      G.world.node.store.data 0 = "abcd".toList := by
  have h : ((feed lib).run () (receiveByMapping ⟨1,"/".toList,0⟩ "/a".toList "a".toList packet 2)
      broken (List.replicate 7 0)).map (fun r => r.2.world.node.store.data 0) =
      some "abcd".toList := by
    decide +kernel
  obtain ⟨⟨u,G⟩,hrun,hdata⟩ := Option.map_eq_some_iff.mp h
  have hmapped := Machine.run_can hrun
  have hagree := receive_branches_agree lib ⟨1,"/".toList,0⟩ "/a".toList "a".toList packet
    "ab".toList ⟨0,0,true⟩ broken ⟨rfl,by decide +kernel,by decide⟩
  exact ⟨G,hmapped,(hagree.1 G).mp hmapped,hdata⟩

end WindCloud
