import WindCloud.System.PartLink

/-!
# The server's side of a part transfer

Whatever the client announces, the server sends a beginning of the part behind
that offset, and all of it unless something fails.
-/

set_option autoImplicit false

namespace WindCloud
open CString Effect Function

def part (c : Content) (first last : ℤ) : Content :=
  (c.drop first.toNat).take (last+1-first).toNat

/-- What is on the connection at any time: the size of the part or a refusal, and
a beginning of what the client has not got. -/
structure Announced (p : Content) (s : Link) : Prop where
  hello : ∀ q, s.wire.hello = some q → q.fileSize = -1 ∨ q.fileSize = p.length
  sent : s.wire.sent = [] ∨ ∃ q, s.wire.offset = some q ∧
    s.wire.sent <+: p.drop (resumeOffset q.offset p.length).toNat

def Complete (p : Content) (s : Link) : Prop :=
  ∃ q, s.wire.offset = some q ∧ s.wire.sent = p.drop (resumeOffset q.offset p.length).toNat

section Ranges

variable {c : Content} {first last : ℤ}

theorem part_length (h0 : 0 ≤ first) (hle : first ≤ last) (hlast : last < c.length) :
    (part c first last).length = last+1-first := by
  unfold part
  rw [List.length_take,List.length_drop]
  omega

theorem part_drop (n : ℕ) : (part c first last).drop n =
    (c.drop (first.toNat+n)).take ((last+1-first).toNat-n) := by
  unfold part
  rw [List.drop_take,List.drop_drop]

end Ranges

section Server

variable {lib : Library} {strict : Prop} {p c : Content} {first last cur : ℤ} {inode : ℕ}
  {s s' : Link} {α : Type}

theorem announced_moves (h : Announced p s) (hs : ClientMoves s s') : Announced p s' where
  hello := by rw [hs.hello]; exact h.hello
  sent := by
    rw [hs.sent]
    rcases h.sent with he | ⟨q,hq,hp⟩
    · exact .inl he
    · exact .inr ⟨q,hs.offset q hq,hp⟩

theorem complete_moves (h : Complete p s) (hs : ClientMoves s s') : Complete p s' := by
  obtain ⟨q,hq,he⟩ := h
  exact ⟨q,hs.offset q hq,by rw [hs.sent]; exact he⟩

abbrev ServesPart (lib : Library) (strict : Prop) (p : Content) (prog : Server α)
    (Q : α → Link → Prop) (s : Link) : Prop :=
  (serverSide lib).disturbed.guarded (Machine.Disturbance ClientMoves (Serving strict)) ()
    (fun _ s => Announced p s) prog Q s

structure Silent (w : World Unit) (s : Link) : Prop where
  world : s.world = w
  hello : s.wire.hello = none
  sent : s.wire.sent = []

/-- The opened file has been sent from the client's offset up to `cur`. -/
structure Streaming (c : Content) (inode : ℕ) (first last cur : ℤ) (s : Link) : Prop where
  desc : (s.world.node.desc ()).map (·.inode) = some inode
  data : s.world.node.store.data inode = c
  hello : ∀ q, s.wire.hello = some q → q.fileSize = last+1-first
  sent : ∃ q : FilePacket, s.wire.offset = some q ∧
    s.wire.sent = (c.drop (first+resumeOffset q.offset (last+1-first)).toNat).take
      (cur-(first+resumeOffset q.offset (last+1-first))).toNat ∧
    first+resumeOffset q.offset (last+1-first) ≤ cur

theorem silent_moves {w : World Unit} (h : Silent w s) (hs : ClientMoves s s') : Silent w s' :=
  ⟨hs.world.trans h.world,hs.hello.trans h.hello,hs.sent.trans h.sent⟩

theorem silent_announced {w : World Unit} (h : Silent w s) : Announced p s where
  hello := by simp [h.hello]
  sent := .inl h.sent

theorem streaming_moves (h : Streaming c inode first last cur s) (hs : ClientMoves s s') :
    Streaming c inode first last cur s' where
  desc := by rw [hs.world]; exact h.desc
  data := by rw [hs.world]; exact h.data
  hello := by rw [hs.hello]; exact h.hello
  sent := by
    obtain ⟨q,hq,he,hle⟩ := h.sent
    exact ⟨q,hs.offset q hq,by rw [hs.sent]; exact he,hle⟩

theorem streaming_announced (h : Streaming c inode first last cur s) (h0 : 0 ≤ first)
    (hle : first ≤ last) (hlast : last < c.length) (hcur : cur ≤ last+1) :
    Announced (part c first last) s := by
  have hlen := part_length h0 hle hlast
  refine ⟨fun q hq => .inr (by rw [hlen]; exact h.hello q hq),.inr ?_⟩
  obtain ⟨q,hq,he,hle'⟩ := h.sent
  obtain ⟨hlo,hhi⟩ := resumeOffset_bounds q.offset (last+1-first) (by omega)
  refine ⟨q,hq,?_⟩
  rw [hlen,part_drop,he,Int.toNat_add h0 hlo]
  exact List.take_prefix_take_left (by omega)

theorem streaming_complete (h : Streaming c inode first last (last+1) s) (h0 : 0 ≤ first)
    (hle : first ≤ last) (hlast : last < c.length) : Complete (part c first last) s := by
  have hlen := part_length h0 hle hlast
  obtain ⟨q,hq,he,hle'⟩ := h.sent
  obtain ⟨hlo,hhi⟩ := resumeOffset_bounds q.offset (last+1-first) (by omega)
  refine ⟨q,hq,?_⟩
  rw [hlen,part_drop,he,Int.toNat_add h0 hlo]
  congr 1
  omega

theorem streaming_send {count : ℤ} {r : Content} {w : World Unit} {ch : Choice}
    (h : Streaming c inode first last cur s)
    (h0 : 0 ≤ first) (hle : first ≤ last)
    (hx : execute lib (.sendfile cur count) () s.world ch = some (r,w)) :
    (ch = .fault ∧ r = []) ∨ (r ≠ [] ∧ (r.length : ℤ) ≤ count ∧
      Streaming c inode first last (cur+r.length)
        (s.setWire { s.wire with sent := s.wire.sent ++ r })) := by
  rcases (execute_sendfile hx).2 with hf | ⟨d,hd,hpos,hne,hcount,hfit,hr⟩
  · exact .inl hf
  · refine .inr ⟨hne,hcount,h.desc,h.data,h.hello,?_⟩
    have hn : d.inode = inode := by
      have hi := h.desc
      rw [hd] at hi
      exact Option.some.inj hi
    rw [hn,h.data] at hr hfit
    obtain ⟨q,hq,he,hle'⟩ := h.sent
    obtain ⟨hlo,_⟩ := resumeOffset_bounds q.offset (last+1-first) (by omega)
    refine ⟨q,hq,?_,by omega⟩
    generalize hst : first+resumeOffset q.offset (last+1-first) = start at *
    change s.wire.sent ++ r = _
    have hsplit : (cur+r.length-start).toNat = (cur-start).toNat+r.length := by omega
    have hdrop : start.toNat+(cur-start).toNat = cur.toNat := by omega
    rw [hsplit,List.take_add,List.drop_drop,hdrop,← hr,he]

theorem servesPart_sends (h0 : 0 ≤ first) (hle : first ≤ last) (hlast : last < c.length) :
    Sends (serverSide lib).disturbed (Machine.Disturbance ClientMoves (Serving strict)) ()
      (fun _ s => Announced (part c first last) s) (Streaming c inode first last)
      (fun s => Announced (part c first last) s ∧ ¬ strict) (last+1) where
  start := fun o cur s _ hcur hs => streaming_announced hs h0 hle hlast hcur
  sendfile := by
    rintro cur count s ⟨w,ch⟩ r s' hcount hstop hs ⟨hmoves,hok⟩ hx
    have hw := streaming_moves hs hmoves
    have hstep : (serverSide lib).exec (.sendfile cur count) () w ch = some (r,s') := hx
    obtain ⟨hx',rfl⟩ := serverSide_sendfile hstep
    rcases streaming_send hw h0 hle hx' with ⟨hf,rfl⟩ | ⟨hne,hlen,hs'⟩
    · refine .inl ⟨rfl,?_,fun hstrict => hok hstrict hf⟩
      have ha := streaming_announced hw h0 hle hlast (by omega)
      exact ⟨ha.hello,by simpa [Link.setWire] using ha.sent⟩
    · exact .inr ⟨hne,hlen,hs'⟩
  sendMapped := by
    rintro cur count s ⟨w,ch⟩ r s' hcount hstop hs ⟨hmoves,hok⟩ hx
    have hw := streaming_moves hs hmoves
    have hstep : (serverSide lib).exec (.sendMapped cur count) () w ch = some (r,s') := hx
    obtain ⟨hx',rfl⟩ := serverSide_sendMapped hstep
    rcases streaming_send hw h0 hle hx' with ⟨hf,rfl⟩ | ⟨hne,hlen,hs'⟩
    · refine .inl ⟨rfl,?_,fun hstrict => hok hstrict hf⟩
      have ha := streaming_announced hw h0 hle hlast (by omega)
      exact ⟨ha.hello,by simpa [Link.setWire] using ha.sent⟩
    · exact .inr ⟨hne,hlen,hs'⟩
  mmap := by
    rintro size cur s ⟨w,ch⟩ r s' hsize hcur hs ⟨hmoves,hok⟩ hx
    have hw := streaming_moves hs hmoves
    have hstep : (serverSide lib).exec (.mmap size) () w ch = some (r,s') := hx
    obtain ⟨hx',hs'⟩ := serverSide_other rfl hstep
    obtain ⟨hsame,hres⟩ := execute_mmap hx'
    have he : s' = w := by rw [hs',hsame]
    subst he
    refine ⟨fun _ => hw,fun hr => ⟨streaming_announced hw h0 hle hlast hcur,fun hstrict => ?_⟩⟩
    rcases hres with ⟨_,hr'⟩ | ⟨hf,_⟩
    · rw [hr'] at hr
      simp [hsize] at hr
    · exact hok hstrict hf

structure Done (strict : Prop) (p : Content) (s : Link) : Prop where
  announced : Announced p s
  complete : strict → Complete p s

structure Opened (c : Content) (inode : ℕ) (s : Link) : Prop where
  desc : (s.world.node.desc ()).map (·.inode) = some inode
  data : s.world.node.store.data inode = c
  sent : s.wire.sent = []

theorem opened_moves (h : Opened c inode s) (hs : ClientMoves s s') : Opened c inode s' :=
  ⟨by rw [hs.world]; exact h.desc,by rw [hs.world]; exact h.data,hs.sent.trans h.sent⟩

theorem serves_local {o : Op} {k : o.Res → Server α} {Q : α → Link → Prop} {K : Link → Prop}
    (ho : o.onWire = false) (hK : ∀ s s', ClientMoves s s' → K s → K s')
    (hA : ∀ s, K s → Announced p s) (hs : K s)
    (h : ∀ s ch r w, K s → Serving strict o s ch → execute lib o () s.world ch = some (r,w) →
      ServesPart lib strict p (k r) Q { s with world := w }) :
    ServesPart lib strict p (.op o k) Q s := by
  refine ⟨hA s hs,fun ⟨w,ch⟩ r s' ⟨hmoves,hok⟩ hx => ?_⟩
  have hstep : (serverSide lib).exec o () w ch = some (r,s') := hx
  obtain ⟨hx',hs'⟩ := serverSide_other ho hstep
  rw [hs']
  exact h w ch r s'.world (hK s w hmoves hs) hok hx'

theorem serves_close (hs : Done strict p s) :
    ServesPart lib strict p close (fun _ s => Done strict p s) s := by
  refine serves_local (K := Done strict p) rfl ?_ (fun s h => h.announced) hs ?_
  · exact fun s s' hm h =>
      ⟨announced_moves h.announced hm,fun hst => complete_moves (h.complete hst) hm⟩
  · exact fun s ch r w hs _ _ => ⟨⟨hs.announced.hello,hs.announced.sent⟩,hs.complete⟩

theorem serves_refuse (arg : Text) (hsent : s.wire.sent = []) (hhello : s.wire.hello = none)
    (hst : ¬ strict) :
    ServesPart lib strict p (sendGetsFailedPacket arg) (fun _ s => Done strict p s) s := by
  refine ⟨⟨by simp [hhello],.inl hsent⟩,fun ⟨w,ch⟩ r s' ⟨hmoves,hok⟩ hx => ?_⟩
  have hstep : (serverSide lib).exec (.send (.file _)) () w ch = some (r,s') := hx
  have hw : w.wire.hello = none := hmoves.hello.trans hhello
  have hw' : w.wire.sent = [] := hmoves.sent.trans hsent
  rcases serverSide_sendFile hstep with ⟨_,rfl,rfl⟩ | ⟨rfl,rfl⟩
  · exact ⟨⟨by simp [hw],.inl hw'⟩,fun h => absurd h hst⟩
  · refine ⟨⟨?_,.inl hw'⟩,fun h => absurd h hst⟩
    intro q hq
    simp only [Link.setWire,hw,Option.none_or,Option.some.injEq] at hq
    subst hq
    exact .inl rfl

/-- The size of the part, where it has been announced. -/
def Sized (first last : ℤ) (s : Link) : Prop :=
  ∀ q, s.wire.hello = some q → q.fileSize = last+1-first

theorem opened_announced (h0 : 0 ≤ first) (hle : first ≤ last) (hlast : last < c.length)
    (hs : Opened c inode s) (hsize : Sized first last s) : Announced (part c first last) s where
  hello := fun q hq => .inr (by rw [part_length h0 hle hlast]; exact hsize q hq)
  sent := .inl hs.sent

theorem serves_answer (h0 : 0 ≤ first) (hle : first ≤ last) (hlast : last < c.length)
    (hfits : (c.length : ℤ) ≤ offMax) (hs : Opened c inode s) (hsize : Sized first last s) :
    ServesPart lib strict (part c first last) (answerOffset first last (last-first+1))
      (fun _ s => Done strict (part c first last) s) s := by
  have hann : ∀ s, Opened c inode s → Sized first last s → Announced (part c first last) s :=
    fun s => opened_announced h0 hle hlast
  refine ⟨hann s hs hsize,fun ⟨w,ch⟩ r s₁ ⟨hmoves,hok⟩ hx => ?_⟩
  have hstep : (serverSide lib).exec .recvFile () w ch = some (r,s₁) := hx
  have hw := opened_moves hs hmoves
  have hsize' : Sized first last w := by
    intro q hq
    exact hsize q (hmoves.hello.symm.trans hq)
  obtain ⟨rfl,⟨hf,rfl⟩ | ⟨q,rfl,hq⟩⟩ := serverSide_recvFile hstep
  · exact serves_close ⟨hann _ hw hsize',fun hst => absurd hf (hok hst)⟩
  have hspan : last-first+1 = last+1-first := by omega
  rw [hspan]
  obtain ⟨hlo,hhi⟩ := resumeOffset_bounds q.offset (last+1-first) (by omega)
  have hoff : offMin ≤ resumeOffset q.offset (last+1-first)+first ∧
      resumeOffset q.offset (last+1-first)+first ≤ offMax := by
    unfold offMin offMax at *
    omega
  have hend : offMin ≤ last+1 ∧ last+1 ≤ offMax := by
    unfold offMin offMax at *
    omega
  have hstart : Streaming c inode first last (resumeOffset q.offset (last+1-first)+first) s₁ := by
    refine ⟨hw.desc,hw.data,hsize',q,hq,?_,by omega⟩
    rw [hw.sent,Int.add_comm first,Int.sub_self]
    rfl
  simp only [Program.bind]
  rw [off_pure hoff.1 hoff.2]
  simp only [Program.pure_eq,Program.ret_bind]
  rw [off_pure hend.1 hend.2]
  simp only [Program.pure_eq,Program.ret_bind]
  refine Machine.guarded_bind _ (Machine.guarded_mono _ ?_ (sendFrom_sends
    (servesPart_sends h0 hle hlast) hend.2 _ (by omega) (by omega) hstart))
  rintro (_ | _) s₂ ⟨hdone,hbroken⟩
  · obtain ⟨ha,hst⟩ := hbroken rfl
    exact serves_close ⟨ha,fun h => absurd h hst⟩
  · have hs₂ := hdone rfl
    exact serves_close ⟨streaming_announced hs₂ h0 hle hlast le_rfl,
      fun _ => streaming_complete hs₂ h0 hle hlast⟩

theorem serves_range (arg : Text) (h0 : 0 ≤ first) (hle : first ≤ last) (hlast : last < c.length)
    (hfits : (c.length : ℤ) ≤ offMax) (hs : Opened c inode s) (hhello : s.wire.hello = none) :
    ServesPart lib strict (part c first last) (sendRange arg first last)
      (fun _ s => Done strict (part c first last) s) s := by
  have hspan : offMin ≤ last-first ∧ last-first ≤ offMax := by
    unfold offMin offMax at *
    omega
  have htotal : offMin ≤ last-first+1 ∧ last-first+1 ≤ offMax := by
    unfold offMin offMax at *
    omega
  unfold sendRange
  rw [off_pure hspan.1 hspan.2]
  simp only [Program.pure_eq,Program.ret_bind]
  rw [off_pure htotal.1 htotal.2]
  refine ⟨⟨by simp [hhello],.inl hs.sent⟩,fun ⟨w,ch⟩ r s₁ ⟨hmoves,hok⟩ hx => ?_⟩
  have hstep : (serverSide lib).exec (.send (.file _)) () w ch = some (r,s₁) := hx
  have hw := opened_moves hs hmoves
  have hwh : w.wire.hello = none := hmoves.hello.trans hhello
  rcases serverSide_sendFile hstep with ⟨hf,rfl,rfl⟩ | ⟨rfl,rfl⟩
  · exact serves_close ⟨⟨by simp [hwh],.inl hw.sent⟩,fun hst => absurd hf (hok hst)⟩
  · refine serves_answer h0 hle hlast hfits ⟨hw.desc,hw.data,hw.sent⟩ fun q hq => ?_
    simp only [Link.setWire,hwh,Option.none_or,Option.some.injEq] at hq
    subst hq
    simp only [initFilePacket]
    omega

theorem serves_file (arg : Text) (h0 : 0 ≤ first) (hle : first ≤ last) (hlast : last < c.length)
    (hfits : (c.length : ℤ) ≤ offMax) (hs : Opened c inode s) (hhello : s.wire.hello = none) :
    ServesPart lib strict (part c first last) (serveFile arg true first last)
      (fun _ s => Done strict (part c first last) s) s := by
  have hkeep : ∀ s s', ClientMoves s s' → (Opened c inode s ∧ s.wire.hello = none) →
      Opened c inode s' ∧ s'.wire.hello = none :=
    fun s s' hm h => ⟨opened_moves h.1 hm,hm.hello.trans h.2⟩
  have hann : ∀ s, (Opened c inode s ∧ s.wire.hello = none) → Announced (part c first last) s :=
    fun s h => ⟨by simp [h.2],.inl h.1.sent⟩
  refine serves_local rfl hkeep hann ⟨hs,hhello⟩ ?_
  rintro s ch r w ⟨hs,hhello⟩ hok hx
  obtain ⟨rfl,⟨d,hd,_,rfl⟩ | ⟨hf,rfl⟩⟩ := execute_fstat hx
  · have hi : d.inode = inode := by
      have h := hs.desc
      rw [hd] at h
      exact Option.some.inj h
    have hsize : ((s.world.node.store.data d.inode).length : ℤ) = c.length := by
      rw [hi,hs.data]
    have hend : offMin ≤ (c.length : ℤ)-1 ∧ (c.length : ℤ)-1 ≤ offMax := by
      unfold offMin offMax at *
      omega
    simp only [Program.bind]
    rw [hsize,off_pure hend.1 hend.2]
    simp only [Program.pure_eq,Program.ret_bind,if_true]
    rw [if_neg (by omega)]
    exact serves_range arg h0 hle hlast hfits hs hhello
  · simp only [Program.bind]
    refine serves_local rfl hkeep hann ⟨hs,hhello⟩ ?_
    rintro s ch' r w ⟨hs,hhello⟩ _ _
    exact serves_refuse arg hs.sent hhello fun hst => hok hst hf

theorem serves_handleGetsRange (ctx : ClientContext) (arg : Text) {w₀ : World Unit} (h0 : 0 ≤ first)
    (hle : first ≤ last) (hlast : last < c.length) (hfits : (c.length : ℤ) ≤ offMax)
    (hstored : Stored ctx arg c w₀) (hs : Silent w₀ s) :
    ServesPart lib strict (part c first last) (handleGetsRange ctx arg first last)
      (fun _ s => Done strict (part c first last) s) s := by
  obtain ⟨full,row,fileId,file,inode,hfull,hrow,hfile,htype,hinfo,hlen,hname,hdata⟩ := hstored.found
  have hann : ∀ s, Silent w₀ s → Announced (part c first last) s := fun s => silent_announced
  have hkeep : ∀ s s', ClientMoves s s' → Silent w₀ s → Silent w₀ s' :=
    fun s s' hm h => silent_moves h hm
  have hrefuse : ∀ s, Silent w₀ s → ¬ strict → ServesPart lib strict (part c first last)
      (sendGetsFailedPacket arg) (fun _ s => Done strict (part c first last) s) s :=
    fun s h hst => serves_refuse arg h.sent h.hello hst
  unfold handleGetsRange handleGetsCommon
  rw [hfull]
  refine serves_local rfl hkeep hann hs ?_
  intro s₁ ch₁ r₁ w₁ hs₁ hok₁ hx₁
  rcases execute_sql hx₁ with ⟨_,db,hexec,rfl⟩ | ⟨hf,rfl,rfl⟩
  swap
  · exact hrefuse s₁ hs₁ fun hst => hok₁ hst hf
  obtain ⟨rfl,rfl⟩ : some (row.id,some fileId,0) = r₁ ∧ w₀.db = db := by
    rw [hs₁.world] at hexec
    simpa [Statement.exec,hrow,hfile,htype] using hexec
  rw [← hs₁.world]
  simp only [Program.bind,if_true]
  refine serves_local rfl hkeep hann hs₁ ?_
  intro s₂ ch₂ r₂ w₂ hs₂ hok₂ hx₂
  rcases execute_sql hx₂ with ⟨_,db,hexec,rfl⟩ | ⟨hf,rfl,rfl⟩
  swap
  · exact hrefuse s₂ hs₂ fun hst => hok₂ hst hf
  obtain ⟨rfl,rfl⟩ : some (Hex.hexLower file.sha256sum,file.size) = r₂ ∧ w₀.db = db := by
    rw [hs₂.world] at hexec
    simpa [Statement.exec,hinfo] using hexec
  rw [← hs₂.world]
  simp only [Program.bind]
  refine serves_local rfl hkeep hann hs₂ ?_
  intro s₃ ch₃ r₃ w₃ hs₃ hok₃ hx₃
  have hdir : w₃ = s₃.world ∧ ((ch₃ = .fault ∧ r₃ = none) ∨ r₃ = some w₀.node.storeDir) := by
    rw [← hs₃.world]
    cases ch₃ <;> simp [execute] at hx₃ <;> simp [← hx₃.1,← hx₃.2]
  obtain ⟨rfl,⟨hf,rfl⟩ | rfl⟩ := hdir
  · exact hrefuse s₃ hs₃ fun hst => hok₃ hst hf
  have hpath : bounded maxPathLen (w₀.node.storeDir ++ '/'::Hex.hexLower file.sha256sum) =
      some (w₀.node.storeDir ++ '/'::Hex.hexLower file.sha256sum) :=
    bounded_eq_some.mpr ⟨rfl,hlen⟩
  simp only [Program.bind,Program.pure_eq,hpath]
  refine serves_local rfl hkeep hann hs₃ ?_
  intro s₄ ch₄ r₄ w₄ hs₄ hok₄ hx₄
  have hopen : (ch₄ = .fault ∧ r₄ = false ∧ w₄ = s₄.world) ∨
      (r₄ = true ∧ w₄ = w₀.setNode (w₀.node.setDesc () (some ⟨inode,0,false⟩))) := by
    rw [hs₄.world] at hx₄ ⊢
    cases ch₄ <;> simp [execute,hname] at hx₄ <;> simp [← hx₄.1,← hx₄.2]
  rcases hopen with ⟨hf,rfl,rfl⟩ | ⟨rfl,rfl⟩
  · exact hrefuse s₄ hs₄ fun hst => hok₄ hst hf
  · have hopened : Opened c inode { s₄ with
        world := w₀.setNode (w₀.node.setDesc () (some ⟨inode,0,false⟩)) } :=
      ⟨by simp [Node.setDesc],by simpa [Node.setDesc] using hdata,hs₄.sent⟩
    exact serves_file arg h0 hle hlast hfits hopened hs₄.hello

end Server

end WindCloud
