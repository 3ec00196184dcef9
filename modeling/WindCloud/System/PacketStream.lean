import WindCloud.Lib.Duet
import WindCloud.Lib.Sockets
import WindCloud.Server.Machine

/-!
# Packets over a stream

`send_full` and `recv_full` at the two ends of a connection. Each call of `send`
takes as many bytes as the stack likes, each call of `recv` returns as many of
those that have arrived, and either may fail instead. The borders of the packets
are nowhere in the stream.
-/

set_option autoImplicit false

namespace WindCloud
open CString Effect Socket

namespace PacketStream

/-- The bytes that were sent, and the number of them that were taken. -/
structure ByteStream where
  sent : Content
  received : ℕ

inductive SendOp where
  | send (buf : Content)

/-- What `send` returns. -/
abbrev SendOp.Res : SendOp → Type
  | .send _ => ℤ

inductive RecvOp where
  | recv (len : ℕ)

/-- What `recv` returns, and the bytes it writes. -/
abbrev RecvOp.Res : RecvOp → Type
  | .recv _ => ℤ × Content

def sendingSide : Machine SendOp SendOp.Res Unit ByteStream SysResult where
  exec
    | .send buf, _, s, .count n =>
      if n ≤ buf.length then some ((n : ℤ),{ s with sent := s.sent ++ buf.take n }) else none
    | .send _, _, s, _ => some (-1,s)

/-- A count of zero is the end of the stream. -/
def receivingSide : Machine RecvOp RecvOp.Res Unit ByteStream SysResult where
  exec
    | .recv len, _, s, .count n =>
      if n ≤ len ∧ s.received+n ≤ s.sent.length then
        some (((n : ℤ),(s.sent.drop s.received).take n),{ s with received := s.received+n })
      else none
    | .recv _, _, s, _ => some ((-1,[]),s)

abbrev SendProgram (α : Type) := Program SendOp SendOp.Res α
abbrev RecvProgram (α : Type) := Program RecvOp RecvOp.Res α

/-- The loop of `send_full`; a pass of it sends at least one byte. -/
def sendLoop (buf : Content) : (passes total : ℕ) → SendProgram ℤ
  | 0, _ => pure 0
  | passes+1, total =>
    if total < buf.length then
      Program.op (.send (buf.drop total)) fun ret =>
        if ret ≤ 0 then pure (-1) else sendLoop buf passes (total+ret.toNat)
    else pure 0

def sendFull (buf : Content) : SendProgram ℤ := sendLoop buf buf.length 0

/-- The loop of `recv_full`, `buf` being what it has written so far. -/
def recvLoop (len : ℕ) : (passes total : ℕ) → (buf : Content) → RecvProgram (ℤ × Content)
  | 0, total, buf => pure ((total : ℤ),buf)
  | passes+1, total, buf =>
    if total < len then
      Program.op (.recv (len-total)) fun r =>
        if r.1 ≤ 0 then pure (r.1,buf) else recvLoop len passes (total+r.1.toNat) (buf ++ r.2)
    else pure ((total : ℤ),buf)

def recvFull (len : ℕ) : RecvProgram (ℤ × Content) := recvLoop len len 0 []

/-- One packet after another, until one cannot be sent. -/
def sendPackets : List Content → SendProgram ℤ
  | [] => pure 0
  | p::ps => do
    let ret ← sendFull p
    if ret = -1 then pure (-1) else sendPackets ps

/-- A call for each packet, until one does not return its length; what they return
and write. -/
def recvPackets : List ℕ → RecvProgram (List (ℤ × Content))
  | [] => pure []
  | len::lens => do
    let call ← recvFull len
    if call.1 = len then do
      let calls ← recvPackets lens
      pure (call::calls)
    else pure [call]

abbrev PacketDuet := Duet SendOp SendOp.Res RecvOp RecvOp.Res ByteStream ℤ (List (ℤ × Content))

def packetDuet (packets : List Content) : PacketDuet :=
  ⟨sendPackets packets,recvPackets (packets.map List.length),⟨[],0⟩⟩

/-- The packets that end at the byte `stop` or before it. -/
def wholeBefore : (stop : ℕ) → List Content → List Content
  | _, [] => []
  | stop, p::ps => if p.length ≤ stop then p::wholeBefore (stop-p.length) ps else []

def fullCall (p : Content) : ℤ × Content := ((p.length : ℤ),p)

/-- What the calls return when the stream ends at `stop`. -/
inductive ReceivedUpTo (packets : List Content) (stop : ℕ) : List (ℤ × Content) → Prop
  | all (whole : wholeBefore stop packets = packets) :
      ReceivedUpTo packets stop (packets.map fullCall)
  | broken (ret : ℤ) (buf : Content) (cut : wholeBefore stop packets ≠ packets) (failed : ret ≤ 0) :
      ReceivedUpTo packets stop ((wholeBefore stop packets).map fullCall ++ [(ret,buf)])

/-- Every call takes something, while `strict`. -/
def Moving {Op : Type} (strict : Prop) (_ : Op) (_ : ByteStream) (c : SysResult) : Prop :=
  strict → c.moves

def PacketRun (strict : Prop) : PacketDuet → PacketDuet → Prop :=
  Duet.Run sendingSide receivingSide () () (Moving strict) (Moving strict)

section Steps

variable {s s' : ByteStream} {c : SysResult}

theorem sendingSide_step {buf : Content} {ret : ℤ}
    (h : sendingSide.exec (.send buf) () s c = some (ret,s')) :
    (ret ≤ 0 ∧ ¬c.moves ∧ s' = s) ∨ ∃ n, 0 < n ∧ n ≤ buf.length ∧ ret = (n : ℤ) ∧
      s' = { s with sent := s.sent ++ buf.take n } := by
  cases c with
  | count n =>
    change (if n ≤ buf.length then _ else none) = _ at h
    split at h
    · rename_i hn
      cases h
      rcases Nat.eq_zero_or_pos n with rfl | hpos
      · exact .inl ⟨Int.le_refl 0,by decide,by rw [List.take_zero,List.append_nil]⟩
      · exact .inr ⟨n,hpos,hn,rfl,rfl⟩
    · cases h
  | eintr =>
    cases h
    exact .inl ⟨show (-1 : ℤ) ≤ 0 by decide,by decide,rfl⟩
  | error =>
    cases h
    exact .inl ⟨show (-1 : ℤ) ≤ 0 by decide,by decide,rfl⟩

theorem receivingSide_step {len : ℕ} {r : ℤ × Content}
    (h : receivingSide.exec (.recv len) () s c = some (r,s')) :
    (r.1 ≤ 0 ∧ ¬c.moves ∧ s' = s) ∨ ∃ n, 0 < n ∧ n ≤ len ∧ s.received+n ≤ s.sent.length ∧
      r = ((n : ℤ),(s.sent.drop s.received).take n) ∧ s' = { s with received := s.received+n } := by
  cases c with
  | count n =>
    change (if n ≤ len ∧ s.received+n ≤ s.sent.length then _ else none) = _ at h
    split at h
    · rename_i hn
      cases h
      rcases Nat.eq_zero_or_pos n with rfl | hpos
      · exact .inl ⟨Int.le_refl 0,by decide,rfl⟩
      · exact .inr ⟨n,hpos,hn.1,hn.2,rfl,rfl⟩
    · cases h
  | eintr =>
    cases h
    exact .inl ⟨show (-1 : ℤ) ≤ 0 by decide,by decide,rfl⟩
  | error =>
    cases h
    exact .inl ⟨show (-1 : ℤ) ≤ 0 by decide,by decide,rfl⟩

end Steps

section Sender

variable {strict : Prop} {stream : Content} {Q : ℤ → ByteStream → Prop}

/-- What the sender leaves alone of what the receiver does. -/
def SentKept (s s' : ByteStream) : Prop := s'.sent = s.sent

/-- There is something to be sent, and it is the next of the stream. -/
def SendsNext (stream : Content) : SendOp → ByteStream → Prop
  | .send buf, s => buf ≠ [] ∧ ∃ later, s.sent ++ buf ++ later = stream

abbrev SendsOn (strict : Prop) (stream : Content) (p : SendProgram ℤ) (Q : ℤ → ByteStream → Prop)
    (s : ByteStream) : Prop :=
  sendingSide.disturbed.guarded (Machine.Disturbance SentKept (Moving strict)) () (SendsNext stream) p Q s

/-- The whole stream was sent, or it breaks off. -/
def SentUpTo (strict : Prop) (stream : Content) (ret : ℤ) (s : ByteStream) : Prop :=
  ret = 0 ∧ s.sent = stream ∨ ret = -1 ∧ ¬strict ∧ s.sent ≠ stream ∧ s.sent <+: stream

theorem sentUpTo_broken {buf later : Content} {s : ByteStream} (hstrict : ¬strict) (hne : buf ≠ [])
    (h : s.sent ++ buf ++ later = stream) : SentUpTo strict stream (-1) s := by
  rw [List.append_assoc] at h
  refine .inr ⟨rfl,hstrict,fun heq => hne ?_,?_⟩
  · rw [← heq] at h
    exact (List.append_eq_nil_iff.mp (List.append_right_eq_self.mp h)).1
  · rw [← h]
    exact List.prefix_append _ _

theorem sendLoop_sends {before buf later : Content} (hstream : before ++ buf ++ later = stream)
    (hdone : ∀ s', s'.sent = before ++ buf → Q 0 s')
    (hfail : ∀ s', SentUpTo strict stream (-1) s' → Q (-1) s') (passes total : ℕ)
    (hpasses : buf.length ≤ passes+total) (s : ByteStream)
    (hs : s.sent = before ++ buf.take total) :
    SendsOn strict stream (sendLoop buf passes total) Q s := by
  have hend : ∀ total (s : ByteStream), s.sent = before ++ buf.take total → buf.length ≤ total → Q 0 s :=
    fun total s hs hle => hdone s (by rw [hs,List.take_of_length_le hle])
  induction passes generalizing total s with
  | zero => exact hend total s hs (by omega)
  | succ passes ih =>
    unfold sendLoop
    split
    · rename_i hlt
      have hne : buf.drop total ≠ [] := fun h => by
        have := List.drop_eq_nil_iff.mp h
        omega
      have hsplit : ∀ s' : ByteStream, s'.sent = s.sent → s'.sent ++ buf.drop total ++ later = stream := by
        intro s' hs'
        rw [hs',hs,List.append_assoc before,List.take_append_drop,hstream]
      refine ⟨⟨hne,later,hsplit s rfl⟩,?_⟩
      rintro ⟨s₁,c⟩ ret s' ⟨hkept,hmoves⟩ hx
      rcases sendingSide_step hx with ⟨hret,hc,rfl⟩ | ⟨n,hpos,hn,rfl,rfl⟩
      · dsimp only
        rw [if_pos hret]
        exact hfail s' (sentUpTo_broken (fun h => hc (hmoves h)) hne (hsplit s' hkept))
      · have hgo : ¬(n : ℤ) ≤ 0 := by omega
        dsimp only
        rw [if_neg hgo,Int.toNat_natCast]
        refine ih (total+n) (by omega) _ ?_
        show s₁.sent ++ _ = _
        rw [show s₁.sent = s.sent from hkept,hs,List.append_assoc,← List.take_add]
    · exact hend total s hs (by omega)

theorem sendPackets_sends (ps : List Content) (before : Content) (s : ByteStream)
    (hstream : before ++ ps.flatten = stream) (hs : s.sent = before) :
    SendsOn strict stream (sendPackets ps) (SentUpTo strict stream) s := by
  induction ps generalizing before s with
  | nil =>
    refine .inl ⟨rfl,?_⟩
    rw [hs,← hstream,List.flatten_nil,List.append_nil]
  | cons p ps ih =>
    have hsplit : before ++ p ++ ps.flatten = stream := by
      rw [← hstream,List.flatten_cons,List.append_assoc]
    refine Machine.guarded_bind s (sendLoop_sends hsplit ?_ ?_ p.length 0 (Nat.le_refl _) s ?_)
    · intro s' hs'
      rw [if_neg (by decide)]
      exact ih (before ++ p) s' hsplit hs'
    · intro s' hs'
      rw [if_pos rfl]
      exact hs'
    · rw [List.take_zero,List.append_nil,hs]

end Sender

section Receiver

variable {strict : Prop} {stream : Content}

/-- What the receiver leaves alone of what the sender does. -/
structure Arrives (s s' : ByteStream) : Prop where
  sent : s.sent <+: s'.sent
  received : s'.received = s.received

/-- Results of calls after which what was sent begins the stream. -/
def Arriving (strict : Prop) (stream : Content) (o : RecvOp) (s : ByteStream) (c : SysResult) : Prop :=
  Moving strict o s c ∧
    ∀ r s', receivingSide.exec o () s c = some (r,s') → s'.sent <+: stream

def Awaits (stream : Content) : RecvOp → ByteStream → Prop
  | .recv len, s => 0 < len ∧ s.received+len ≤ stream.length

abbrev Takes {α : Type} (strict : Prop) (stream : Content) (p : RecvProgram α)
    (Q : α → ByteStream → Prop) (s : ByteStream) : Prop :=
  receivingSide.disturbed.guarded (Machine.Disturbance Arrives (Arriving strict stream)) ()
    (Awaits stream) p Q s

variable {Q : ℤ × Content → ByteStream → Prop}

theorem take_arrived {sent : Content} (h : sent <+: stream) {pos n : ℕ} (hn : pos+n ≤ sent.length) :
    (sent.drop pos).take n = (stream.drop pos).take n := by
  obtain ⟨later,rfl⟩ := h
  rw [List.drop_append_of_le_length (by omega),
    List.take_append_of_le_length (by rw [List.length_drop]; omega)]

theorem recvLoop_takes {base len : ℕ} (hlen : base+len ≤ stream.length)
    (hdone : ∀ s', s'.received = base+len → Q ((len : ℤ),(stream.drop base).take len) s')
    (hfail : ∀ ret buf s', ret ≤ 0 → ¬strict → base ≤ s'.received → s'.received < base+len →
      Q (ret,buf) s')
    (passes total : ℕ) (hpasses : len ≤ passes+total) (htotal : total ≤ len) (s : ByteStream)
    (hs : s.received = base+total) :
    Takes strict stream (recvLoop len passes total ((stream.drop base).take total)) Q s := by
  have hend : ∀ total (s : ByteStream), s.received = base+total → total ≤ len → len ≤ total →
      Q ((total : ℤ),(stream.drop base).take total) s := by
    intro total s hs hle hge
    obtain rfl : total = len := Nat.le_antisymm hle hge
    exact hdone s hs
  induction passes generalizing total s with
  | zero => exact hend total s hs htotal (by omega)
  | succ passes ih =>
    unfold recvLoop
    split
    · rename_i hlt
      refine ⟨⟨by omega,by omega⟩,?_⟩
      rintro ⟨s₁,c⟩ r s' ⟨⟨-,hkept⟩,hmoves,hsent⟩ hx
      have hreceived : s₁.received = base+total := hkept.trans hs
      rcases receivingSide_step hx with ⟨hret,hc,rfl⟩ | ⟨n,hpos,hn,harrived,rfl,rfl⟩
      · dsimp only
        rw [if_pos hret]
        exact hfail r.1 _ s' hret (fun h => hc (hmoves h)) (by omega) (by omega)
      · have hgo : ¬(n : ℤ) ≤ 0 := by omega
        have hbytes : (stream.drop base).take total ++ (s₁.sent.drop s₁.received).take n =
            (stream.drop base).take (total+n) := by
          rw [take_arrived (hsent _ _ hx) harrived,hreceived,← List.drop_drop,← List.take_add]
        dsimp only
        rw [if_neg hgo,Int.toNat_natCast,hbytes]
        refine ih (total+n) (by omega) (by omega) _ ?_
        show s₁.received+n = base+(total+n)
        omega
    · exact hend total s hs htotal (by omega)

theorem recvPackets_takes (ps : List Content) (before : Content) (s : ByteStream)
    (hstream : before ++ ps.flatten = stream) (hs : s.received = before.length) :
    Takes strict stream (recvPackets (ps.map List.length)) (fun calls s' =>
      before.length ≤ s'.received ∧ ReceivedUpTo ps (s'.received-before.length) calls ∧
        (strict → calls = ps.map fullCall)) s := by
  induction ps generalizing before s with
  | nil => exact ⟨by omega,.all rfl,fun _ => rfl⟩
  | cons p ps ih =>
    have hsplit : before ++ p ++ ps.flatten = stream := by
      rw [← hstream,List.flatten_cons,List.append_assoc]
    have hlen : before.length+p.length ≤ stream.length := by
      rw [← hsplit,List.length_append,List.length_append]
      omega
    have hp : (stream.drop before.length).take p.length = p := by
      rw [← hsplit,List.append_assoc,List.drop_left,List.take_left]
    refine Machine.guarded_bind s (recvLoop_takes hlen ?_ ?_ p.length 0 (Nat.le_refl _)
      (Nat.zero_le _) s hs)
    · intro s' hs'
      dsimp only
      rw [if_pos rfl,hp]
      have hrest := ih (before ++ p) s' hsplit (by rw [hs',List.length_append])
      refine Machine.guarded_bind s' (Machine.guarded_mono s' (fun calls t ht => ?_) hrest)
      rw [List.length_append] at ht
      obtain ⟨hle,hcalls,hall⟩ := ht
      refine ⟨by omega,?_,fun h => by rw [hall h]; rfl⟩
      have hwhole : wholeBefore (t.received-before.length) (p::ps) =
          p::wholeBefore (t.received-(before.length+p.length)) ps := by
        rw [wholeBefore,if_pos (by omega),Nat.sub_sub]
      cases hcalls with
      | all hw => exact .all (by rw [hwhole,hw])
      | broken ret buf hcut hret =>
        have hnext : ReceivedUpTo (p::ps) (t.received-before.length) _ :=
          .broken ret buf (by rw [hwhole]; exact fun h => hcut (List.cons.inj h).2) hret
        rw [hwhole] at hnext
        exact hnext
    · intro ret buf s' hret hstrict hge hlt
      have hno : ¬ret = (p.length : ℤ) := by omega
      have hnone : wholeBefore (s'.received-before.length) (p::ps) = [] := by
        rw [wholeBefore,if_neg (by omega)]
      have hbroken : ReceivedUpTo (p::ps) (s'.received-before.length) _ :=
        .broken ret buf (by rw [hnone]; exact List.cons_ne_nil _ _ ∘ Eq.symm) hret
      rw [hnone] at hbroken
      dsimp only
      rw [if_neg hno]
      exact ⟨hge,hbroken,fun h => absurd h hstrict⟩

end Receiver

section Runs

variable {strict : Prop} {packets : List Content} {P Q : PacketDuet}

structure SenderAt (strict : Prop) (stream : Content) (P : PacketDuet) : Prop where
  sent : P.state.sent <+: stream
  next : ∀ buf k, P.left = .op (.send buf) k → buf ≠ []
  returns : ∀ ret, P.left = .ret ret → SentUpTo strict stream ret P.state

structure ReceiverAt (strict : Prop) (packets : List Content) (P : PacketDuet) : Prop where
  next : ∀ len k, P.right = .op (.recv len) k →
    0 < len ∧ P.state.received+len ≤ packets.flatten.length
  returns : ∀ calls, P.right = .ret calls → ReceivedUpTo packets P.state.received calls ∧
    (strict → calls = packets.map fullCall)

theorem receivingSide_sent {o : RecvOp} {c : SysResult} {r : o.Res} {s s' : ByteStream}
    (h : receivingSide.exec o () s c = some (r,s')) : SentKept s s' := by
  obtain ⟨len⟩ := o
  rcases receivingSide_step h with ⟨-,-,rfl⟩ | ⟨n,-,-,-,-,rfl⟩
  · rfl
  · rfl

theorem sendingSide_arrives {o : SendOp} {c : SysResult} {r : o.Res} {s s' : ByteStream}
    (h : sendingSide.exec o () s c = some (r,s')) : Arrives s s' := by
  obtain ⟨buf⟩ := o
  rcases sendingSide_step h with ⟨-,-,rfl⟩ | ⟨n,-,-,-,rfl⟩
  · exact ⟨List.prefix_rfl,rfl⟩
  · exact ⟨List.prefix_append _ _,rfl⟩

theorem arrives_trans (s t u : ByteStream) (h : Arrives s t) (h' : Arrives t u) : Arrives s u :=
  ⟨h.sent.trans h'.sent,h'.received.trans h.received⟩

theorem run_sender (run : PacketRun strict (packetDuet packets) P) :
    SenderAt strict packets.flatten P := by
  have hguard : SendsOn strict packets.flatten (packetDuet packets).left
      (SentUpTo strict packets.flatten) (packetDuet packets).state :=
    sendPackets_sends packets [] _ rfl rfl
  obtain ⟨s,hkept,hg⟩ := Duet.left_guarded (P := packetDuet packets) (R := SentKept) (fun _ => rfl)
    (fun _ _ _ h h' => Eq.trans h' h) (fun _ _ _ _ _ _ hx => receivingSide_sent hx) hguard run
  have hsent : P.state.sent = s.sent := hkept
  cases hl : P.left with
  | ret ret =>
    rw [hl] at hg
    have hupto : SentUpTo strict packets.flatten ret P.state := by
      unfold SentUpTo
      rw [hsent]
      exact hg
    have hbegins : P.state.sent <+: packets.flatten := by
      rcases hupto with ⟨-,hall⟩ | ⟨-,-,-,hbegins⟩
      · rw [hall]
      · exact hbegins
    refine ⟨hbegins,fun buf k h => ?_,fun ret' h => ?_⟩
    · cases h.symm.trans hl
    · cases h.symm.trans hl
      exact hupto
  | op o k =>
    obtain ⟨buf⟩ := o
    rw [hl] at hg
    obtain ⟨⟨hne,later,hnext⟩,-⟩ := hg
    refine ⟨?_,fun buf' k' h => ?_,fun ret' h => ?_⟩
    · rw [hsent,← hnext,List.append_assoc]
      exact List.prefix_append _ _
    · cases h.symm.trans hl
      exact hne
    · cases h.symm.trans hl

theorem run_receiver (run : PacketRun strict (packetDuet packets) P) :
    ReceiverAt strict packets P := by
  have hguard : Takes strict packets.flatten (packetDuet packets).right _ (packetDuet packets).state :=
    recvPackets_takes packets [] _ rfl rfl
  have hkept : Duet.Run sendingSide receivingSide () () (fun _ _ _ => True)
      (Arriving strict packets.flatten) (packetDuet packets) P :=
    Duet.run_mono (fun _ _ _ _ => trivial) (fun _ _ _ h => h)
      (Duet.run_kept (I := fun s => s.sent <+: packets.flatten) (fun Q h => (run_sender h).sent) run)
  obtain ⟨s,harrives,hg⟩ := Duet.right_guarded (P := packetDuet packets) (R := Arrives)
    (fun _ => ⟨List.prefix_rfl,rfl⟩) arrives_trans
    (fun _ _ _ _ _ _ hx => sendingSide_arrives hx) hguard hkept
  have hreceived : P.state.received = s.received := harrives.received
  cases hr : P.right with
  | ret calls =>
    rw [hr] at hg
    obtain ⟨-,hcalls,hall⟩ := hg
    rw [List.length_nil,Nat.sub_zero,← hreceived] at hcalls
    refine ⟨fun len k h => ?_,fun calls' h => ?_⟩
    · cases h.symm.trans hr
    · cases h.symm.trans hr
      exact ⟨hcalls,hall⟩
  | op o k =>
    obtain ⟨len⟩ := o
    rw [hr] at hg
    obtain ⟨⟨hpos,hle⟩,-⟩ := hg
    rw [← hreceived] at hle
    refine ⟨fun len' k' h => ?_,fun calls' h => ?_⟩
    · cases h.symm.trans hr
      exact ⟨hpos,hle⟩
    · cases h.symm.trans hr

theorem run_completes (run : PacketRun True (packetDuet packets) P) :
    ∃ P' ret calls, PacketRun True P P' ∧ P'.left = .ret ret ∧ P'.right = .ret calls := by
  induction hm : (packets.flatten.length-P.state.sent.length)+
      (packets.flatten.length-P.state.received) using Nat.strong_induction_on generalizing P with
  | _ n ih =>
    subst hm
    obtain ⟨hsent,hnext,hleft⟩ := run_sender run
    obtain ⟨hawaits,hright⟩ := run_receiver run
    cases hl : P.left with
    | op o k =>
      obtain ⟨buf⟩ := o
      have hpos := List.length_pos_of_ne_nil (hnext buf k hl)
      have hx : sendingSide.exec (.send buf) () P.state (.count 1) =
          some ((1 : ℤ),{ P.state with sent := P.state.sent ++ buf.take 1 }) := if_pos hpos
      have hrun := Duet.Run.left run hl (fun _ => by decide) hx
      have hbegins := (run_sender hrun).sent.length_le
      have hlen : (P.state.sent ++ buf.take 1).length = P.state.sent.length+1 := by
        rw [List.length_append,List.length_take]
        omega
      dsimp only at hbegins
      rw [hlen] at hbegins
      obtain ⟨P',ret,calls,hP',hends⟩ := ih _ (by dsimp only; omega) hrun rfl
      exact ⟨P',ret,calls,Duet.run_trans (.left (.refl P) hl (fun _ => by decide) hx) hP',hends⟩
    | ret ret =>
      cases hr : P.right with
      | ret calls => exact ⟨P,ret,calls,.refl P,hl,hr⟩
      | op o k =>
        obtain ⟨len⟩ := o
        obtain ⟨hpos,hle⟩ := hawaits len k hr
        have hall : P.state.sent = packets.flatten := by
          rcases hleft ret hl with ⟨-,hall⟩ | ⟨-,hno,-⟩
          · exact hall
          · exact absurd trivial hno
        have hx : receivingSide.exec (.recv len) () P.state (.count 1) =
            some (((1 : ℤ),(P.state.sent.drop P.state.received).take 1),
              { P.state with received := P.state.received+1 }) :=
          if_pos ⟨hpos,by rw [hall]; omega⟩
        have hrun := Duet.Run.right run hr (fun _ => by decide) hx
        obtain ⟨P',ret,calls,hP',hends⟩ := ih _ (by dsimp only; omega) hrun rfl
        exact ⟨P',ret,calls,Duet.run_trans (.right (.refl P) hr (fun _ => by decide) hx) hP',hends⟩

end Runs

/-- Whatever the calls of `send` and `recv` take, the receiver has the packets that end
before the byte at which the stream ends for it, and all of them in order if no call
fails. -/
theorem packets_received (packets : List Content) :
    (∀ P, PacketRun False (packetDuet packets) P →
      (∀ ret, P.left = .ret ret → (ret = 0 ↔ P.state.sent = packets.flatten)) ∧
        ∀ calls, P.right = .ret calls → ReceivedUpTo packets P.state.received calls) ∧
      ∀ P, PacketRun True (packetDuet packets) P →
        (∀ calls, P.right = .ret calls → calls = packets.map fullCall) ∧
          ∃ P' ret calls, PacketRun True P P' ∧ P'.left = .ret ret ∧ P'.right = .ret calls := by
  constructor
  · intro P run
    refine ⟨fun ret hret => ?_,fun calls hcalls => ((run_receiver run).returns calls hcalls).1⟩
    rcases (run_sender run).returns ret hret with ⟨rfl,hall⟩ | ⟨rfl,-,hcut,-⟩
    · exact iff_of_true rfl hall
    · exact iff_of_false (by decide) hcut
  · intro P run
    exact ⟨fun calls hcalls => ((run_receiver run).returns calls hcalls).2 trivial,run_completes run⟩

/-- Two packets in short counts, and a stream that ends within the second one. -/
theorem second_packet_cut : ReceivedUpTo ["ab".toList,"cd".toList] 3 [(2,"ab".toList),(0,"c".toList)] := by
  have h : (Duet.replay sendingSide receivingSide () () (fun _ _ _ => true) (fun _ _ _ => true)
      [.inl (.count 1),.inr (.count 1),.inl (.count 1),.inl (.count 2),.inr (.count 1),
        .inr (.count 1),.inr (.count 0)] (packetDuet ["ab".toList,"cd".toList])).map
      (fun P => (match P.right with | .ret calls => calls | .op _ _ => [],P.state.received)) =
      some ([(2,"ab".toList),(0,"c".toList)],3) := by decide +kernel
  obtain ⟨P,hP,hends⟩ := Option.map_eq_some_iff.mp h
  have hrun : PacketRun False (packetDuet ["ab".toList,"cd".toList]) P :=
    Duet.run_mono (fun _ _ _ _ hf => hf.elim) (fun _ _ _ _ hf => hf.elim) (Duet.replay_run _ hP)
  obtain ⟨hcalls,hstop⟩ := Prod.mk.inj hends
  cases hr : P.right with
  | ret calls =>
    rw [hr] at hcalls
    have hreceived := ((packets_received _).1 P hrun).2 calls hr
    rw [hstop,show calls = _ from hcalls] at hreceived
    exact hreceived
  | op o k =>
    rw [hr] at hcalls
    cases hcalls

end PacketStream

end WindCloud
