import WindCloud.Server.DownloadSafety
import WindCloud.Server.DriveRuns

/-!
# Downloads from the drive

A download that is executed with nothing else running sends bytes of the file at
its place, from the client's offset on, and all of them unless an operation fails.
-/

set_option autoImplicit false

namespace WindCloud
open CString Effect Function Runs

def Entry.content : Entry → Option Content
  | .dir => none
  | .file c => some c

/-- The first and the last byte that are asked for of a file of this size. -/
def effectiveSpan (useRange : Bool) (rangeStart rangeEnd size : ℤ) : Option (ℤ × ℤ) :=
  if useRange then
    if rangeStart < 0 ∨ rangeEnd < rangeStart ∨ size ≤ rangeEnd then none
    else some (rangeStart,rangeEnd)
  else some (0,size-1)

def Grant.span (g : Grant) (size : ℤ) : Option (ℤ × ℤ) :=
  if g.rangeStart ≤ g.rangeEnd ∧ 0 ≤ g.rangeEnd then
    effectiveSpan true g.rangeStart g.rangeEnd size
  else effectiveSpan false 0 (-1) size

/-- What is asked for of the file at a path. -/
def World.spanAt {ι : Type} (w : World ι) (ctx : ClientContext) (arg : Text)
    (span : ℤ → Option (ℤ × ℤ)) : Option (Content × ℤ × ℤ) :=
  (buildFullVirtualPath fullPathLen ctx arg).bind fun path =>
    ((w.drive (ctx.userId,path)).bind Entry.content).bind fun c =>
      (span c.length).map fun r => (c,r.1,r.2)

def World.requested {ι : Type} (w : World ι) (g : Grant) : Option (Content × ℤ × ℤ) :=
  (w.db.transferContext g.userId g.fullPath).bind fun e => w.spanAt e.1 e.2 g.span

/-- Of `c` the bytes from `p` on were sent, up to `stop` if nothing failed. -/
def Shipped (sure : Prop) (c : Content) (p stop : ℤ) (d : Delivery) : Prop :=
  ∃ q, p ≤ q ∧ q ≤ stop ∧ d.sends.flatMap (·.bytes) = (c.drop p.toNat).take (q-p).toNat ∧
    (sure → q = stop)

/-- Where the client's offset makes the sending start. -/
def sendStart (offset first last : ℤ) : ℤ := first+resumeOffset offset (last-first+1)

def Answered (sure : Prop) (r : Option (Content × ℤ × ℤ)) (offset : ℤ) (d : Delivery) : Prop :=
  match r with
  | none => d.sends = []
  | some (c,first,last) => Shipped sure c (sendStart offset first last) (last+1) d

/-- Nothing fails if nothing is to. -/
def Unfailing {σ : Type} (sure : Prop) (_ : Op) (_ : σ) (c : Choice) : Prop := sure → c ≠ .fault

section Spans

variable {ι : Type} {w : World ι} {g : Grant} {c : Content} {first last : ℤ} {sure : Prop}
  {d : Delivery} {offset : ℤ}

theorem effectiveSpan_bounds {useRange : Bool} {rangeStart rangeEnd size : ℤ} (hsize : 0 ≤ size)
    (h : effectiveSpan useRange rangeStart rangeEnd size = some (first,last)) :
    0 ≤ first ∧ first ≤ last+1 := by
  unfold effectiveSpan at h
  split at h
  · split at h
    · cases h
    · obtain ⟨rfl,rfl⟩ := Prod.mk.inj (Option.some.inj h)
      omega
  · obtain ⟨rfl,rfl⟩ := Prod.mk.inj (Option.some.inj h)
    omega

theorem spanAt_some {ctx : ClientContext} {arg : Text} {span : ℤ → Option (ℤ × ℤ)}
    (h : w.spanAt ctx arg span = some (c,first,last)) : span c.length = some (first,last) := by
  obtain ⟨path,-,h⟩ := Option.bind_eq_some_iff.mp h
  obtain ⟨c',-,h⟩ := Option.bind_eq_some_iff.mp h
  obtain ⟨⟨a,b⟩,hspan,he⟩ := Option.map_eq_some_iff.mp h
  obtain ⟨rfl,rfl,rfl⟩ : c' = c ∧ a = first ∧ b = last := by simpa using he
  exact hspan

theorem sendStart_bounds (h : first ≤ last+1) :
    first ≤ sendStart offset first last ∧ sendStart offset first last ≤ last+1 := by
  obtain ⟨hlo,hhi⟩ := resumeOffset_bounds offset (last-first+1) (by omega)
  unfold sendStart
  omega

theorem shipped_nothing {p stop : ℤ} (hsure : ¬sure) (hd : d.sends = []) (hp : p ≤ stop) :
    Shipped sure c p stop d :=
  ⟨p,le_rfl,hp,by simp [hd],fun h => absurd h hsure⟩

theorem answered_nothing {r : Option (Content × ℤ × ℤ)} (hd : d.sends = []) (h : r = none ∨ ¬sure)
    (hspan : ∀ c first last, r = some (c,first,last) → first ≤ last+1) :
    Answered sure r offset d := by
  unfold Answered
  split
  · exact hd
  · rcases h with h | h
    · cases h
    · exact shipped_nothing h hd (sendStart_bounds (hspan _ _ _ rfl)).2

end Spans

section Sending

variable {ι α β : Type} [DecidableEq ι] {lib : Library} {i : ι} {sure : Prop} {c : Content}
  {p stop offset : ℤ} {s : World ι × (ι → Delivery)}

abbrev Singly (lib : Library) (sure : Prop) (i : ι) (p : Server α)
    (Q : α → World ι × (ι → Delivery) → Prop) (s : World ι × (ι → Delivery)) : Prop :=
  (deliveries ι lib).wlp (Unfailing sure) i p Q s

theorem singly_bind {p : Server α} {f : α → Server β} {Q : β → World ι × (ι → Delivery) → Prop}
    (h : Singly lib sure i p (fun a s' => Singly lib sure i (f a) Q s') s) :
    Singly lib sure i (p >>= f) Q s :=
  (Machine.wlp_bind p f Q s).mpr h

theorem singly_op {o : Op} {f : o.Res → Server β} {Q : β → World ι × (ι → Delivery) → Prop}
    (h : ∀ x r s', (sure → x ≠ .fault) → execute lib o i s.1 x = some (r,s'.1) →
      s'.2 i = noteDelivery o r s.1 (s.2 i) → Singly lib sure i (f r) Q s') :
    Singly lib sure i (perform o >>= f) Q s := by
  intro x r s' hok hx
  obtain ⟨hx,hg⟩ := recorded_exec hx
  exact h x r s' hok hx (by rw [hg,update_self])

theorem singly_off {n : ℤ} {f : ℤ → Server β} {Q : β → World ι × (ι → Delivery) → Prop}
    (h : offMin ≤ n → n ≤ offMax → Singly lib sure i (f n) Q s) :
    Singly lib sure i (off n >>= f) Q s := by
  unfold off
  split
  · rename_i hn
    exact h hn.1 hn.2
  · exact fun x r s' _ _ => r.elim

/-- The file is open and its bytes from `p` up to `cur` have been sent. -/
structure Flowing (c : Content) (i : ι) (p cur : ℤ) (s : World ι × (ι → Delivery)) : Prop where
  opened : (s.2 i).opened.isSome
  desc : ∃ x, s.1.node.desc i = some x ∧ s.1.node.store.data x.inode = c
  sent : p ≤ cur ∧ (s.2 i).sends.flatMap (·.bytes) = (c.drop p.toNat).take (cur-p).toNat

theorem take_slice {c r : Content} {p cur : ℤ} (h0 : 0 ≤ p) (hp : p ≤ cur)
    (hr : r = (c.drop cur.toNat).take r.length) :
    (c.drop p.toNat).take (cur-p).toNat ++ r = (c.drop p.toNat).take (cur+r.length-p).toNat := by
  have hn : (cur+r.length-p).toNat = (cur-p).toNat+r.length := by omega
  have hdrop : cur.toNat = p.toNat+(cur-p).toNat := by omega
  rw [hn,List.take_add,List.drop_drop,← hdrop,← hr]

theorem flowing_send {cur count : ℤ} {x : Choice} {r : Content} {s' : World ι × (ι → Delivery)}
    (h0 : 0 ≤ p) (hs : Flowing c i p cur s) (hx : execute lib (.sendfile cur count) i s.1 x =
      some (r,s'.1)) (hg : s'.2 i = (s.2 i).send s.1 cur r) :
    (x = .fault ∧ r = [] ∧ Flowing c i p cur s') ∨
      (r ≠ [] ∧ (r.length : ℤ) ≤ count ∧ Flowing c i p (cur+r.length) s') := by
  obtain ⟨hw,hb⟩ := execute_sendfile hx
  obtain ⟨y,hy,hdata⟩ := hs.desc
  rcases hb with ⟨rfl,rfl⟩ | ⟨y',hy',-,hne,hle,-,hbytes⟩
  · have hsame : (s.2 i).send s.1 cur [] = s.2 i := by
      unfold Delivery.send
      split <;> simp
    rw [hsame] at hg
    exact .inl ⟨rfl,rfl,by rw [hg]; exact hs.opened,⟨y,by rw [hw]; exact hy,by rw [hw]; exact hdata⟩,
      by rw [hg]; exact hs.sent⟩
  · obtain rfl := Option.some.inj (hy.symm.trans hy')
    rw [hdata] at hbytes
    obtain ⟨⟨path,n⟩,hopen⟩ := Option.isSome_iff_exists.mp hs.opened
    have hsend : (s.2 i).send s.1 cur r =
        { s.2 i with sends := (s.2 i).sends ++ [⟨cur,r,s.1.node.store.data n⟩] } := by
      simp [Delivery.send,hopen,hne]
    rw [hsend] at hg
    refine .inr ⟨hne,hle,by rw [hg]; exact hs.opened,⟨y,by rw [hw]; exact hy,by rw [hw]; exact hdata⟩,
      by have := hs.sent.1; omega,?_⟩
    rw [hg,List.flatMap_append,hs.sent.2]
    have hslice := take_slice h0 hs.sent.1 hbytes
    simpa using hslice

def BrokenOff (sure : Prop) (c : Content) (i : ι) (p stop : ℤ) (s : World ι × (ι → Delivery)) : Prop :=
  ¬sure ∧ ∃ cur, cur ≤ stop ∧ Flowing c i p cur s

theorem flowing_sends (h0 : 0 ≤ p) :
    Sends (deliveries ι lib) (Unfailing sure) i (fun _ _ => True) (Flowing c i p)
      (BrokenOff sure c i p stop) stop where
  start _ _ _ _ _ _ := trivial
  sendfile := by
    intro cur count s x r s' hcount hstop hs hok hx
    obtain ⟨hx,hg⟩ := recorded_exec hx
    rcases flowing_send h0 hs hx (by rw [hg,update_self]; rfl) with
      ⟨rfl,rfl,hs'⟩ | ⟨hne,hle,hs'⟩
    · exact .inl ⟨rfl,fun h => hok h rfl,cur,by omega,hs'⟩
    · exact .inr ⟨hne,hle,hs'⟩
  sendMapped := by
    intro cur count s x r s' hcount hstop hs hok hx
    obtain ⟨hx,hg⟩ := recorded_exec hx
    rcases flowing_send h0 hs (execute_sendMapped hx) (by rw [hg,update_self]; rfl) with
      ⟨rfl,rfl,hs'⟩ | ⟨hne,hle,hs'⟩
    · exact .inl ⟨rfl,fun h => hok h rfl,cur,by omega,hs'⟩
    · exact .inr ⟨hne,hle,hs'⟩
  mmap := by
    intro size cur s x r s' hsize hcur hs hok hx
    obtain ⟨hx,hg⟩ := recorded_exec hx
    obtain ⟨hw,hb⟩ := execute_mmap hx
    have hs' : Flowing c i p cur s' := by
      have hnote : s'.2 i = s.2 i := by
        rw [hg,update_self]
        rfl
      obtain ⟨y,hy,hdata⟩ := hs.desc
      exact ⟨by rw [hnote]; exact hs.opened,⟨y,by rw [hw]; exact hy,by rw [hw]; exact hdata⟩,
        by rw [hnote]; exact hs.sent⟩
    rcases hb with ⟨rfl,rfl⟩ | ⟨rfl,rfl⟩
    · exact ⟨fun _ => hs',fun hno => absurd hsize (of_decide_eq_false hno)⟩
    · exact ⟨nofun,fun _ => ⟨fun h => hok h rfl,cur,hcur,hs'⟩⟩

structure Poised (c : Content) (offset : ℤ) (i : ι) (s : World ι × (ι → Delivery)) : Prop where
  opened : (s.2 i).opened.isSome
  desc : ∃ x, s.1.node.desc i = some x ∧ s.1.node.store.data x.inode = c
  unsent : (s.2 i).sends = []
  hello : (s.1.node.conn i).hello.offset = offset

theorem singly_close {d : Delivery} {Q : Delivery → Prop} (hd : s.2 i = d) (hQ : Q d) :
    Singly lib sure i close (fun _ s' => Q (s'.2 i)) s := by
  intro x r s' _ hx
  obtain ⟨-,hg⟩ := recorded_exec hx
  have hsame : s'.2 i = d := by
    rw [hg,update_self,← hd]
    rfl
  change Q (s'.2 i)
  rw [hsame]
  exact hQ

theorem execute_hello {w w' : World ι} {x : Choice} {r : Option FilePacket}
    (h : execute lib .recvFile i w x = some (r,w')) :
    w' = w ∧ (r = some (w.node.conn i).hello ∨ (x = .fault ∧ r = none)) := by
  cases x <;> simp [execute] at h <;> grind

theorem singly_sendRange (arg : Text) {first last : ℤ} (h0 : 0 ≤ first) (hspan : first ≤ last+1)
    (hs : Poised c offset i s) :
    Singly lib sure i (sendRange arg first last)
      (fun _ s' => Shipped sure c (sendStart offset first last) (last+1) (s'.2 i)) s := by
  have hbounds : first ≤ sendStart offset first last ∧ sendStart offset first last ≤ last+1 :=
    sendStart_bounds hspan
  obtain ⟨hlo,hhi⟩ := hbounds
  unfold sendRange
  refine singly_off fun _ _ => singly_off fun _ _ => ?_
  refine singly_op fun x r s₁ hx he hg => ?_
  have hd₁ : s₁.2 i = s.2 i := hg
  rcases execute_send he with ⟨-,rfl,hw⟩ | ⟨rfl,rfl,hw⟩
  · obtain ⟨y,hy,hdata⟩ := hs.desc
    have hy₁ : s₁.1.node.desc i = some y := by
      rw [hw]
      exact hy
    have hdata₁ : s₁.1.node.store.data y.inode = c := by
      rw [hw]
      exact hdata
    have hhello : (s₁.1.node.conn i).hello.offset = offset := by
      rw [hw,← hs.hello]
      simp [Node.deliver,Node.setConn,World.setNode]
    refine singly_op fun x r s₂ hx he hg₂ => ?_
    obtain ⟨hw₂,hr⟩ := execute_hello he
    have hd₂ : s₂.2 i = s.2 i := hg₂.trans hd₁
    rcases hr with rfl | ⟨rfl,rfl⟩
    · refine singly_off fun _ _ => singly_off fun _ hmax => ?_
      rw [hhello,add_comm (resumeOffset offset (last-first+1)) first]
      have hstart : Flowing c i (sendStart offset first last) (sendStart offset first last) s₂ := by
        refine ⟨by rw [hd₂]; exact hs.opened,⟨y,by rw [hw₂]; exact hy₁,by rw [hw₂]; exact hdata₁⟩,
          le_rfl,?_⟩
        rw [hd₂,hs.unsent]
        simp
      have hflows : Sends (deliveries ι lib) (Unfailing sure) i (fun _ _ => True)
          (Flowing c i (sendStart offset first last))
          (BrokenOff sure c i (sendStart offset first last) (last+1)) (last+1) :=
        flowing_sends (by omega)
      have hsend := sendFrom_sends hflows hmax
        (last-first+1) (by omega) hhi hstart
      refine singly_bind (Machine.wlp_mono _ ?_ (Machine.guarded_wlp hsend))
      rintro (_ | _) s₃ ⟨hdone,hbroken⟩
      · obtain ⟨hsure,cur,hcur,hflow⟩ := hbroken rfl
        refine singly_close rfl ⟨cur,hflow.sent.1,hcur,hflow.sent.2,fun h => absurd h hsure⟩
      · have hflow := hdone rfl
        exact singly_close rfl ⟨last+1,hflow.sent.1,le_rfl,hflow.sent.2,fun _ => rfl⟩
    · exact singly_close hd₂ (shipped_nothing (fun h => hx h rfl) hs.unsent hhi)
  · exact singly_close hd₁ (shipped_nothing (fun h => hx h rfl) hs.unsent hhi)

theorem singly_failed {d : Delivery} {Q : Delivery → Prop} (arg : Text) (hd : s.2 i = d) (hQ : Q d) :
    Singly lib sure i (sendGetsFailedPacket arg) (fun _ s' => Q (s'.2 i)) s := by
  refine singly_op fun x r s₁ _ _ hg => ?_
  have hsame : s₁.2 i = d := hg.trans hd
  change Q (s₁.2 i)
  rw [hsame]
  exact hQ

theorem singly_serveFile (arg : Text) (useRange : Bool) (rangeStart rangeEnd : ℤ)
    (hs : Poised c offset i s) :
    Singly lib sure i (serveFile arg useRange rangeStart rangeEnd) (fun _ s' => Answered sure
      ((effectiveSpan useRange rangeStart rangeEnd c.length).map fun r => (c,r.1,r.2)) offset
        (s'.2 i)) s := by
  have hbounds : ∀ c' first last, (effectiveSpan useRange rangeStart rangeEnd c.length).map
      (fun r => (c,r.1,r.2)) = some (c',first,last) → 0 ≤ first ∧ first ≤ last+1 := by
    intro c' first last h
    obtain ⟨⟨a,b⟩,hspan,he⟩ := Option.map_eq_some_iff.mp h
    obtain ⟨rfl,rfl,rfl⟩ : c = c' ∧ a = first ∧ b = last := by simpa using he
    exact effectiveSpan_bounds (by omega) hspan
  have hrefuse : ∀ s₁ : World ι × (ι → Delivery), s₁.2 i = s.2 i →
      ((effectiveSpan useRange rangeStart rangeEnd c.length).map fun r => (c,r.1,r.2)) = none ∨ ¬sure →
      Singly lib sure i (close >>= fun _ => sendGetsFailedPacket arg) (fun _ s' => Answered sure
        ((effectiveSpan useRange rangeStart rangeEnd c.length).map fun r => (c,r.1,r.2)) offset
          (s'.2 i)) s₁ := by
    intro s₁ hd h
    refine singly_op fun x r s₂ _ _ hg => singly_failed arg (hg.trans hd) ?_
    exact answered_nothing hs.unsent h fun c' first last hr => (hbounds c' first last hr).2
  unfold serveFile
  refine singly_op fun x r s₁ hx he hg => ?_
  have hd : s₁.2 i = s.2 i := hg
  obtain ⟨hw,hsize⟩ := execute_fstat he
  rcases hsize with ⟨y,hy,-,rfl⟩ | ⟨rfl,rfl⟩
  · obtain ⟨y',hy',hdata⟩ := hs.desc
    obtain rfl := Option.some.inj (hy.symm.trans hy')
    have hpoised : Poised c offset i s₁ :=
      ⟨by rw [hd]; exact hs.opened,⟨y,by rw [hw]; exact hy,by rw [hw]; exact hdata⟩,
        by rw [hd]; exact hs.unsent,by rw [hw]; exact hs.hello⟩
    rw [hdata] at *
    refine singly_off fun _ _ => ?_
    split
    · rename_i hrange
      split
      · rename_i hout
        refine hrefuse s₁ hd (.inl ?_)
        rw [effectiveSpan,if_pos hrange,if_pos hout]
        rfl
      · rename_i hin
        have hspan : effectiveSpan useRange rangeStart rangeEnd c.length =
            some (rangeStart,rangeEnd) := by
          rw [effectiveSpan,if_pos hrange,if_neg hin]
        rw [hspan]
        exact singly_sendRange arg (by omega) (by omega) hpoised
    · rename_i hrange
      have hspan : effectiveSpan useRange rangeStart rangeEnd c.length =
          some (0,(c.length : ℤ)-1) := by
        rw [effectiveSpan,if_neg hrange]
      rw [hspan]
      exact singly_sendRange arg le_rfl (by omega) hpoised
  · exact hrefuse s₁ hd (.inr fun h => hx h rfl)

end Sending

section Lookups

variable {ι α β : Type} [DecidableEq ι] {lib : Library} {i : ι} {sure : Prop} {w : World ι}
  {s s' : World ι × (ι → Delivery)}

/-- The tables and the store are as they were, and nothing has been sent. -/
structure Arrived (w : World ι) (i : ι) (s : World ι × (ι → Delivery)) : Prop where
  db : s.1.db = w.db
  store : s.1.node.store = w.node.store
  storeDir : s.1.node.storeDir = w.node.storeDir
  hello : (s.1.node.conn i).hello = (w.node.conn i).hello
  unsent : (s.2 i).sends = []

omit [DecidableEq ι] in
theorem noted_sql (t : Statement) (r : t.Res) (v : World ι) (d : Delivery) :
    (noteDelivery (.sql t) r v d).sends = d.sends := by
  cases t with
  | fileInfoByPath userId path =>
    change (d.ask userId path r).sends = d.sends
    unfold Delivery.ask
    split <;> rfl
  | fileInfoById fileId =>
    change (d.find fileId r).sends = d.sends
    unfold Delivery.find
    split <;> rfl
  | _ => rfl

theorem singly_sql {t : Statement} {f : t.Res → Server β}
    {Q : β → World ι × (ι → Delivery) → Prop} (ht : t.reads = true) (hs : Arrived w i s)
    (hheld : ∀ s', Arrived w i s' → Singly lib sure i (f (t.exec w.db).1) Q s')
    (hfailed : ¬sure → ∀ s', Arrived w i s' → Singly lib sure i (f t.failed) Q s') :
    Singly lib sure i (sql t >>= f) Q s := by
  refine singly_op fun x r s₁ hx he hg => ?_
  have hunsent : (s₁.2 i).sends = [] := by
    rw [hg,noted_sql]
    exact hs.unsent
  rcases execute_sql he with ⟨-,db,hexec,hw⟩ | ⟨rfl,rfl,hw⟩
  · rw [hs.db] at hexec
    have hdb : db = w.db := by
      rw [← Statement.exec_reads ht w.db,hexec]
    have hr : r = (t.exec w.db).1 := by rw [hexec]
    rw [hr]
    exact hheld s₁ ⟨by rw [hw]; exact hdb,by rw [hw]; exact hs.store,by rw [hw]; exact hs.storeDir,
      by rw [hw]; exact hs.hello,hunsent⟩
  · exact hfailed (fun h => hx h rfl) s₁ ⟨by rw [hw]; exact hs.db,by rw [hw]; exact hs.store,
      by rw [hw]; exact hs.storeDir,by rw [hw]; exact hs.hello,hunsent⟩

theorem singly_fileInfo {userId : ℤ} {path : Text} {f : Option (ℕ × ℕ) → Server β}
    {Q : β → World ι × (ι → Delivery) → Prop} (hs : Arrived w i s)
    (hheld : ∀ s', Arrived w i s' → Singly lib sure i (f (w.db.fileInfo userId path)) Q s')
    (hfailed : ¬sure → ∀ s', Arrived w i s' → Singly lib sure i (f none) Q s') :
    Singly lib sure i (daoGetFileInfoByPath userId path >>= f) Q s := by
  refine singly_bind (singly_sql rfl hs (fun s₁ hs₁ => ?_) fun h s₁ hs₁ => hfailed h s₁ hs₁)
  have hfound := hheld s₁ hs₁
  simp only [Statement.exec,Db.fileInfo] at hfound ⊢
  cases hn : w.db.nodeAt userId path with
  | none =>
    simp only [hn,Option.map_none] at hfound ⊢
    exact hfound
  | some r =>
    simp only [hn,Option.map_some] at hfound ⊢
    cases hf : r.fileId with
    | none =>
      simp only [hf,Option.map_none,ite_self] at hfound
      exact hfound
    | some fileId =>
      simp only [hf,Option.map_some] at hfound ⊢
      split
      · rename_i ht
        rw [if_pos ht] at hfound
        exact hfound
      · rename_i ht
        rw [if_neg ht] at hfound
        exact hfound

omit [DecidableEq ι] in
theorem drive_content (w : World ι) (userId : ℤ) (path : Text) :
    (w.drive (userId,path)).bind Entry.content =
      (w.db.fileInfo userId path).bind fun e => (w.db.fileWithId e.2).bind fun r =>
        w.node.store.read (storePath w.node.storeDir (Hex.hexLower r.sha256sum)) := by
  unfold World.drive Db.fileInfo
  cases w.db.nodeAt userId path with
  | none => rfl
  | some p =>
    simp only [Option.bind_some]
    split
    · cases p.fileId with
      | none => rfl
      | some fileId =>
        simp only [Option.bind_some,Option.map_some]
        cases w.db.fileWithId fileId with
        | none => rfl
        | some r =>
          simp only [Option.bind_some]
          cases w.node.store.read (storePath w.node.storeDir (Hex.hexLower r.sha256sum)) with
          | none => rfl
          | some c => rfl
    · rfl

theorem singly_openRead {path : Text} {f : Bool → Server β}
    {Q : β → World ι × (ι → Delivery) → Prop} (hs : Arrived w i s)
    (hopen : ∀ c s', w.node.store.read path = some c →
      Poised c (w.node.conn i).hello.offset i s' → Singly lib sure i (f true) Q s')
    (hfailed : ∀ s', w.node.store.read path = none ∨ ¬sure → Arrived w i s' →
      Singly lib sure i (f false) Q s') :
    Singly lib sure i (perform (.openRead path) >>= f) Q s := by
  refine singly_op fun x r s₁ hx he hg => ?_
  have hnote : s₁.2 i = if (r : Bool) = true then (s.2 i).openFile s.1 path else s.2 i := hg
  cases x <;> simp only [execute,reduceCtorEq] at he
  case ok =>
    cases hn : s.1.node.store.names path with
    | some n =>
      rw [hn] at he
      obtain ⟨rfl,hw⟩ := Prod.mk.inj (Option.some.inj he)
      have hread : w.node.store.read path = some (w.node.store.data n) := by
        rw [← hs.store,Inodes.read,hn]
        rfl
      rw [if_pos rfl,Delivery.openFile,hn] at hnote
      refine hopen _ s₁ hread ⟨by rw [hnote]; rfl,⟨⟨n,0,false⟩,?_,?_⟩,by rw [hnote]; exact hs.unsent,?_⟩
      · rw [← hw]
        simp [World.setNode,Node.setDesc]
      · rw [← hw,← hs.store]
        rfl
      · rw [← hw,← hs.hello]
        rfl
    | none =>
      rw [hn] at he
      obtain ⟨rfl,hw⟩ := Prod.mk.inj (Option.some.inj he)
      have hread : w.node.store.read path = none := by
        rw [← hs.store,Inodes.read,hn]
        rfl
      rw [if_neg (by simp)] at hnote
      exact hfailed s₁ (.inl hread) ⟨by rw [← hw]; exact hs.db,by rw [← hw]; exact hs.store,
        by rw [← hw]; exact hs.storeDir,by rw [← hw]; exact hs.hello,by rw [hnote]; exact hs.unsent⟩
  case fault =>
    obtain ⟨rfl,hw⟩ := Prod.mk.inj (Option.some.inj he)
    rw [if_neg (by simp)] at hnote
    exact hfailed s₁ (.inr fun h => hx h rfl) ⟨by rw [← hw]; exact hs.db,by rw [← hw]; exact hs.store,
      by rw [← hw]; exact hs.storeDir,by rw [← hw]; exact hs.hello,by rw [hnote]; exact hs.unsent⟩

theorem singly_storePath {h : Text} {f : Option Text → Server β}
    {Q : β → World ι × (ι → Delivery) → Prop} (hs : Arrived w i s)
    (hheld : ∀ s', Arrived w i s' → Singly lib sure i (f (some (storePath w.node.storeDir h))) Q s')
    (hfailed : (sure → ¬(storePath w.node.storeDir h).length < maxPathLen) → ∀ s',
      Arrived w i s' → Singly lib sure i (f none) Q s') :
    Singly lib sure i (buildStoreFilePath h >>= f) Q s := by
  refine singly_bind (singly_op fun x r s₁ hx he hg => ?_)
  have hs₁ : s₁.1 = s.1 → Arrived w i s₁ := fun hw =>
    ⟨by rw [hw]; exact hs.db,by rw [hw]; exact hs.store,by rw [hw]; exact hs.storeDir,
      by rw [hw]; exact hs.hello,by rw [hg]; exact hs.unsent⟩
  cases x <;> simp only [execute,reduceCtorEq] at he
  case ok =>
    obtain ⟨rfl,hw⟩ := Prod.mk.inj (Option.some.inj he)
    have harrived := hs₁ hw.symm
    change Singly lib sure i (f (bounded maxPathLen (s.1.node.storeDir ++ '/'::h))) Q s₁
    rw [hs.storeDir]
    unfold bounded
    split
    · exact hheld s₁ harrived
    · rename_i hlong
      exact hfailed (fun _ => hlong) s₁ harrived
  case fault =>
    obtain ⟨rfl,hw⟩ := Prod.mk.inj (Option.some.inj he)
    exact hfailed (fun h => absurd rfl (hx h)) s₁ (hs₁ hw.symm)

theorem singly_getsCommon (hk : w.db.Keyed) (hfit : sure → w.node.storeDir.length+65 < maxPathLen)
    (ctx : ClientContext) (arg : Text) (useRange : Bool) (rangeStart rangeEnd : ℤ)
    (hs : Arrived w i s) :
    Singly lib sure i (handleGetsCommon ctx arg useRange rangeStart rangeEnd) (fun _ s' =>
      Answered sure (w.spanAt ctx arg (effectiveSpan useRange rangeStart rangeEnd))
        (w.node.conn i).hello.offset (s'.2 i)) s := by
  have hrefuse : ∀ s₁ : World ι × (ι → Delivery), Arrived w i s₁ →
      w.spanAt ctx arg (effectiveSpan useRange rangeStart rangeEnd) = none ∨ ¬sure →
      Singly lib sure i (sendGetsFailedPacket arg) (fun _ s' =>
        Answered sure (w.spanAt ctx arg (effectiveSpan useRange rangeStart rangeEnd))
          (w.node.conn i).hello.offset (s'.2 i)) s₁ := by
    intro s₁ hs₁ h
    refine singly_failed arg rfl (answered_nothing hs₁.unsent h fun c first last hr => ?_)
    exact (effectiveSpan_bounds (by omega) (spanAt_some hr)).2
  unfold handleGetsCommon
  cases hp : buildFullVirtualPath fullPathLen ctx arg with
  | none => exact hrefuse s hs (.inl (by simp [World.spanAt,hp]))
  | some path =>
    have hat : w.spanAt ctx arg (effectiveSpan useRange rangeStart rangeEnd) =
        ((w.drive (ctx.userId,path)).bind Entry.content).bind fun c =>
          (effectiveSpan useRange rangeStart rangeEnd c.length).map fun r => (c,r.1,r.2) := by
      rw [World.spanAt,hp]
      rfl
    rw [drive_content] at hat
    refine singly_fileInfo hs (fun s₁ hs₁ => ?_) fun h s₁ hs₁ => hrefuse s₁ hs₁ (.inr h)
    cases hi : w.db.fileInfo ctx.userId path with
    | none => exact hrefuse s₁ hs₁ (.inl (by simp [hat,hi]))
    | some e =>
      obtain ⟨id,fileId⟩ := e
      refine singly_sql rfl hs₁ (fun s₂ hs₂ => ?_) fun h s₂ hs₂ => hrefuse s₂ hs₂ (.inr h)
      simp only [Statement.exec]
      cases hr : w.db.fileWithId fileId with
      | none => exact hrefuse s₂ hs₂ (.inl (by simp [hat,hi,hr]))
      | some row =>
        have hread : w.spanAt ctx arg (effectiveSpan useRange rangeStart rangeEnd) =
            (w.node.store.read (storePath w.node.storeDir (Hex.hexLower row.sha256sum))).bind fun c =>
              (effectiveSpan useRange rangeStart rangeEnd c.length).map fun r => (c,r.1,r.2) := by
          simp [hat,hi,hr]
        have hlen : (storePath w.node.storeDir (Hex.hexLower row.sha256sum)).length =
            w.node.storeDir.length+65 := by
          have hcell := (hk.cells row (fileWithId_some hr).1).1
          simp [storePath,Hex.hexLower_length,hcell]
        refine singly_storePath hs₂ (fun s₃ hs₃ => ?_) fun h s₃ hs₃ => hrefuse s₃ hs₃ (.inr ?_)
        · refine singly_openRead hs₃ (fun c s₄ hc hs₄ => ?_) fun s₄ h hs₄ => hrefuse s₄ hs₄ ?_
          · rw [hread,hc]
            exact singly_serveFile arg useRange rangeStart rangeEnd hs₄
          · refine h.imp_left fun hnone => ?_
            rw [hread,hnone]
            rfl
        · exact fun hsure => (h hsure) (by rw [hlen]; exact hfit hsure)

theorem singly_transferContext {userId : ℤ} {fullPath : Text}
    {f : Option (ClientContext × Text) → Server β} {Q : β → World ι × (ι → Delivery) → Prop}
    (hs : Arrived w i s) (hheld : ∀ s', Arrived w i s' →
      Singly lib sure i (f (w.db.transferContext userId fullPath)) Q s')
    (hfailed : ¬sure → ∀ s', Arrived w i s' → Singly lib sure i (f none) Q s') :
    Singly lib sure i (buildTransferContext userId fullPath >>= f) Q s := by
  unfold buildTransferContext
  unfold Db.transferContext at hheld
  split
  · rename_i hsplit
    rw [hsplit] at hheld
    exact hheld s hs
  rename_i parent fileName hsplit
  rw [hsplit] at hheld
  dsimp only at hheld
  split
  · rename_i hroot
    rw [if_pos hroot] at hheld
    exact hheld s hs
  rename_i hroot
  rw [if_neg hroot] at hheld
  unfold Db.lookup at hheld
  rw [if_neg hroot] at hheld
  unfold daoGetNodeByPath
  rw [if_neg hroot]
  refine singly_bind (singly_sql rfl hs (fun s₁ hs₁ => ?_) fun h s₁ hs₁ => hfailed h s₁ hs₁)
  have hfound := hheld s₁ hs₁
  simp only [Statement.exec] at hfound ⊢
  cases hn : w.db.nodeAt userId parent with
  | none =>
    rw [hn] at hfound
    exact hfound
  | some r =>
    rw [hn] at hfound
    simp only [Option.map_some] at hfound ⊢
    split
    · rename_i ht
      rw [if_pos ht] at hfound
      exact hfound
    · rename_i ht
      rw [if_neg ht] at hfound
      exact hfound

theorem singly_serveTransfer (hk : w.db.Keyed)
    (hfit : sure → w.node.storeDir.length+65 < maxPathLen) {g : Grant}
    (hg : g.cmdType = CmdType.gets.code) (hs : Arrived w i s) :
    Singly lib sure i (serveTransfer g) (fun _ s' =>
      Answered sure (w.requested g) (w.node.conn i).hello.offset (s'.2 i)) s := by
  have hbounds : ∀ c first last, w.requested g = some (c,first,last) → first ≤ last+1 := by
    intro c first last h
    obtain ⟨e,-,h⟩ := Option.bind_eq_some_iff.mp h
    have hspan := spanAt_some h
    unfold Grant.span at hspan
    split at hspan <;> exact (effectiveSpan_bounds (by omega) hspan).2
  have hrefuse : ∀ s₁ : World ι × (ι → Delivery), Arrived w i s₁ → w.requested g = none ∨ ¬sure →
      Singly lib sure i (failGetsRequest (splitName g.fullPath)) (fun _ s' =>
        Answered sure (w.requested g) (w.node.conn i).hello.offset (s'.2 i)) s₁ :=
    fun s₁ hs₁ h => singly_failed _ rfl (answered_nothing hs₁.unsent h hbounds)
  unfold serveTransfer
  refine singly_transferContext hs (fun s₁ hs₁ => ?_) fun h s₁ hs₁ => ?_
  · cases hctx : w.db.transferContext g.userId g.fullPath with
    | none =>
      dsimp only
      rw [if_pos hg]
      exact hrefuse s₁ hs₁ (.inl (by rw [World.requested,hctx]; rfl))
    | some e =>
      obtain ⟨ctx,fileName⟩ := e
      have hreq : w.requested g = w.spanAt ctx fileName g.span := by
        rw [World.requested,hctx]
        rfl
      dsimp only
      rw [if_pos hg,hreq]
      unfold serveDownload
      split
      · rename_i hrange
        have hspan : g.span = effectiveSpan true g.rangeStart g.rangeEnd := by
          funext size
          rw [Grant.span,if_pos hrange]
        rw [hspan]
        exact singly_getsCommon hk hfit ctx fileName true _ _ hs₁
      · rename_i hrange
        have hspan : g.span = effectiveSpan false 0 (-1) := by
          funext size
          rw [Grant.span,if_neg hrange]
        rw [hspan]
        exact singly_getsCommon hk hfit ctx fileName false _ _ hs₁
  · dsimp only
    rw [if_pos hg]
    exact hrefuse s₁ hs₁ (.inr h)

/-- Any execution of a download with nothing else running. -/
theorem download_answered (hk : w.db.Keyed) {g : Grant} (hg : g.cmdType = CmdType.gets.code)
    (peer : Connection) {cs : List Choice} {s' : World ι × (ι → Delivery)}
    (h : (deliveries ι lib).Exec (fun _ _ _ => True) i (serveTransfer g)
      (w.meet i peer,fun _ => .start) cs () s') :
    Answered (w.node.storeDir.length+65 < maxPathLen ∧ Choice.fault ∉ cs) (w.requested g)
      peer.hello.offset (s'.2 i) := by
  have hconn : (w.meet i peer).node.conn i = peer := by
    simp [World.meet,Node.setConn,Node.setDesc]
  have hexec : (deliveries ι lib).Exec
      (Unfailing (w.node.storeDir.length+65 < maxPathLen ∧ Choice.fault ∉ cs)) i (serveTransfer g)
        (w.meet i peer,fun _ => .start) cs () s' := by
    refine Machine.exec_mono ?_ (Machine.exec_listed h)
    rintro o v c ⟨-,hc⟩ hsure rfl
    exact hsure.2 hc
  have hwlp := Machine.exec_wlp hexec (singly_serveTransfer (w := w.meet i peer) hk
    (fun hsure => hsure.1) hg ⟨rfl,rfl,rfl,rfl,rfl⟩)
  rw [hconn] at hwlp
  exact hwlp

end Lookups

/-- The server with its database and what its downloads have sent. -/
abbrev sqlDeliveries (d : Database) (lib : Library) :
    Machine Op Op.Res Unit (World Unit × (Unit → Delivery)) Choice :=
  (sqlServer Unit d lib).recorded noteDelivery

theorem sqlDeliveries_agrees {d : Database} {lib : Library} {cols : TextColumns}
    (hd : Documented cols d) :
    (sqlDeliveries d lib).Agrees (deliveries Unit lib) fun o x _ => o.Meant cols x.1.db :=
  recorded_agrees noteDelivery (sqlServer_agrees hd fun _ _ _ h => h)

namespace ResumedUpload

/-- The client has one of the two letters. -/
def fetcher : Connection := ⟨[],⟨.gets,0,1,[],[]⟩,fun _ => [],[],[]⟩

/-- The whole file is asked for. -/
def wanted : Grant := ⟨1,CmdType.gets.code,"/a".toList,0,-1,[],[]⟩

def fetching : List Choice := List.replicate 7 .ok ++ [.count 1,.ok]

def meant (o : Op) (x : World Unit × (Unit → Delivery)) (_ : Choice) : Bool :=
  decide (o.Meant caseless x.1.db)

theorem meant_exec {x s' : World Unit × (Unit → Delivery)} {g : Grant} {cs : List Choice}
    (h : ((deliveries Unit TwoUploads.lib).restrict meant).run () (serveTransfer g) x cs =
      some ((),s')) : (sqlDeliveries (strictDatabase caseless) TwoUploads.lib).Exec
        (fun o x _ => o.Meant caseless x.1.db) () (serveTransfer g) x cs () s' := by
  have hexec := Machine.restrict_exec (Machine.run_exec h)
  exact Machine.exec_agrees (Machine.agrees_symm (sqlDeliveries_agrees (strict_documented _)))
    (Machine.exec_mono (fun _ _ _ => of_decide_eq_true) hexec)

end ResumedUpload

end WindCloud
