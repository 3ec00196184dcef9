import WindCloud.System.PartServer

/-!
# The client's side of a part transfer

Wherever the transfer stops, the part file is what it was or a beginning of what
it is to become, and the client waits for no byte the server does not send.
-/

set_option autoImplicit false

namespace WindCloud
open CString Effect Function Client

def fetched (old p : Content) : Content :=
  if old.length < p.length then old ++ p.drop old.length
  else if old.length = p.length then old
  else p

def Fetching (old p f : Content) : Prop :=
  if old.length < p.length then f <+: old ++ p.drop old.length ∧ old.length ≤ f.length
  else if old.length = p.length then f = old
  else f = old ∨ f <+: p

def offsetOf (old p : Content) : ℕ :=
  if old.length < p.length then old.length else if old.length = p.length then p.length else 0

section Contents

variable {old p : Content}

theorem fetching_old : Fetching old p old := by
  unfold Fetching
  split
  · exact ⟨List.prefix_append _ _,le_rfl⟩
  · split
    · rfl
    · exact .inl rfl

theorem offsetOf_le : offsetOf old p ≤ p.length := by
  unfold offsetOf
  split
  · omega
  · split <;> omega

theorem requestOffsetOf_eq : requestOffsetOf old.length p.length = offsetOf old p := by
  unfold requestOffsetOf offsetOf
  split
  · rw [if_pos (by omega)]
  · split
    · rw [if_neg (by omega),if_pos (by omega)]
    · rw [if_neg (by omega),if_neg (by omega)]
      rfl

theorem fetched_length (hp : old.length ≠ p.length) : (fetched old p).length = p.length := by
  unfold fetched
  split
  · rw [List.length_append,List.length_drop]
    omega
  · rfl

theorem fetched_drop (hp : old.length ≠ p.length) {k : ℕ} (hk : offsetOf old p ≤ k) :
    (fetched old p).drop k = p.drop k := by
  unfold fetched offsetOf at *
  split
  · rename_i hlt
    rw [if_pos hlt] at hk
    rw [List.drop_append,List.drop_of_length_le hk,List.nil_append,List.drop_drop]
    congr 1
    omega
  · rfl

theorem fetching_take (hp : old.length ≠ p.length) {k : ℕ} (hk : offsetOf old p ≤ k)
    (hle : k ≤ p.length) : Fetching old p ((fetched old p).take k) := by
  have hlen := fetched_length hp
  unfold Fetching
  split
  · rename_i hlt
    have hf : fetched old p = old ++ p.drop old.length := if_pos hlt
    have ho : offsetOf old p = old.length := if_pos hlt
    refine ⟨by rw [← hf]; exact List.take_prefix _ _,?_⟩
    rw [List.length_take]
    omega
  · rename_i hlt
    have hf : fetched old p = p := by
      unfold fetched
      rw [if_neg hlt,if_neg hp]
    rw [hf]
    exact .inr (List.take_prefix _ _)

theorem fetched_take (hp : old.length ≠ p.length) (h : 0 < offsetOf old p) :
    (fetched old p).take (offsetOf old p) = old := by
  unfold offsetOf fetched at *
  split
  · exact List.take_left
  · rename_i hlt
    simp [hlt,hp] at h

end Contents

/-- What the server may do while the client waits. -/
structure ServerServes (p : Content) (s s' : Link) : Prop where
  moves : ServerMoves s s'
  announced : Announced p s → Announced p s'

/-- What the client knows of the state. -/
structure Stands (old p : Content) (f : Client.State) (off : Option FilePacket) (got : ℕ)
    (s : Link) : Prop where
  files : s.files = f
  asked : ∀ q, off = some q → q.offset = offsetOf old p
  offset : s.wire.offset = off
  received : s.wire.received = got
  announced : Announced p s

/-- At each operation: the part file, and room for what a receive waits for. -/
structure FetchKept (old p : Content) (path : Text) (o : Client.Op) (s : Link) : Prop where
  file : Fetching old p (s.files.content path)
  asked : ∀ q, s.wire.offset = some q → q.offset = offsetOf old p
  waits : ∀ once, o = .recvFull once → ∃ q, s.wire.offset = some q ∧
    s.wire.received+once ≤ p.length-q.offset

structure FetchDone (old p : Content) (path : Text) (r : ℤ) (s : Link) : Prop where
  file : Fetching old p (s.files.content path)
  asked : ∀ q, s.wire.offset = some q → q.offset = offsetOf old p
  success : r = 0 → s.files.content path = fetched old p ∧
    ∃ q, s.wire.offset = some q ∧ (s.wire.received : ℤ) = p.length-q.offset

section Client

variable {old p : Content} {path : Text} {f : Client.State} {off : Option FilePacket} {got : ℕ}
  {s s' : Link} {α : Type}

theorem stands_asked (h : Stands old p f off got s) :
    ∀ q, s.wire.offset = some q → q.offset = offsetOf old p := by
  rw [h.offset]
  exact h.asked

theorem stands_serves (h : Stands old p f off got s) (hs : ServerServes p s s') :
    Stands old p f off got s' where
  files := hs.moves.files.trans h.files
  asked := h.asked
  offset := hs.moves.offset.trans h.offset
  received := hs.moves.received.trans h.received
  announced := hs.announced h.announced

abbrev Fetches (old p : Content) (path : Text) (prog : Client α) (Q : α → Link → Prop)
    (s : Link) : Prop :=
  clientSide.disturbed.guarded (Machine.Disturbance (ServerServes p) StatAnswers) ()
    (FetchKept old p path) prog Q s

theorem fetches_local {o : Client.Op} {k : o.Res → Client α} {Q : α → Link → Prop}
    (ho : o.onWire = false) (hs : Stands old p f off got s) (hf : Fetching old p (f.content path))
    (h : ∀ c r f' s', StatAnswers o s c → Client.execute o f c = some (r,f') →
      Stands old p f' off got s' → Fetches old p path (k r) Q s') :
    Fetches old p path (.op o k) Q s := by
  refine ⟨⟨by rw [hs.files]; exact hf,stands_asked hs,?_⟩,fun ⟨w,c⟩ r s' ⟨hmoves,hok⟩ hx => ?_⟩
  · rintro once rfl
    cases ho
  · have hw := stands_serves hs hmoves
    have hstep : clientSide.exec o () w c = some (r,s') := hx
    rw [clientSide_local ho,hw.files] at hstep
    obtain ⟨⟨r₁,f'⟩,hx',he⟩ := Option.map_eq_some_iff.mp hstep
    cases he
    exact h c r₁ f' _ hok hx' ⟨rfl,hw.asked,hw.offset,hw.received,hw.announced.hello,hw.announced.sent⟩

/-- The first `k` bytes are in the part file, and the handle is behind them. -/
structure Grown (w : Content) (path : Text) (k : ℕ) (f : Client.State) : Prop where
  content : f.content path = w.take k
  output : f.output = some ⟨path,k⟩

theorem grown_emit {w buf : Content} {k : ℕ} (h : Grown w path k f) (hk : k ≤ w.length)
    (hbuf : buf <+: w.drop k) : Grown w path (k+buf.length) (f.emit ⟨path,k⟩ buf) where
  content := by
    simp only [State.emit,State.put,State.content,AList.lookup_insert,Option.getD_some]
    have hc : (f.files.lookup path).getD [] = w.take k := h.content
    rw [hc]
    exact Buffer.splice_take '\x00' hk hbuf
  output := rfl

theorem grown_write {w buf : Content} {k : ℕ} {f' : Client.State} {c : Client.Choice} {r : ℕ}
    (h : Grown w path k f) (hk : k ≤ w.length) (hbuf : buf <+: w.drop k)
    (hx : Client.execute (.write buf) f c = some (r,f')) :
    (r = 0 ∧ f' = f) ∨
      ((buf ≠ [] → 0 < r) ∧ r ≤ buf.length ∧ Grown w path (k+r) f') := by
  cases c with
  | ok =>
    simp only [Client.execute,h.output] at hx
    cases hx
    exact .inr ⟨List.length_pos_of_ne_nil,le_rfl,grown_emit h hk hbuf⟩
  | fault =>
    cases hx
    exact .inl ⟨rfl,rfl⟩
  | count n =>
    simp only [Client.execute,h.output] at hx
    split at hx
    · rename_i hn
      have htake : (buf.take n).length = n := by
        rw [List.length_take]
        omega
      have he := grown_emit h hk ((List.take_prefix n buf).trans hbuf)
      rw [htake] at he
      cases hx
      exact .inr ⟨fun _ => hn.1,hn.2.le,he⟩
    · cases hx

/-- A beginning of the finished file, up to `j`. -/
structure GrownTo (old p : Content) (path : Text) (off : Option FilePacket) (got j : ℕ)
    (s : Link) : Prop where
  state : ∃ f, Stands old p f off got s ∧ Grown (fetched old p) path j f
  lower : offsetOf old p ≤ j
  upper : j ≤ p.length

theorem grownTo_fetching {j : ℕ} (hp : old.length ≠ p.length)
    (h : GrownTo old p path off got j s) : Fetching old p (s.files.content path) := by
  obtain ⟨f,hs,hf⟩ := h.state
  rw [hs.files,hf.content]
  exact fetching_take hp h.lower h.upper

theorem fetches_writeFileFull (hp : old.length ≠ p.length) {buf : Content} {k : ℕ}
    (hup : k+buf.length ≤ p.length) (hbuf : buf <+: p.drop k) (passes : ℕ) {total : ℕ}
    (ht : total ≤ buf.length) (hpasses : buf.length ≤ passes+total)
    (hs : GrownTo old p path off got (k+total) s) :
    Fetches old p path (Client.writeFileFull buf passes total)
      (fun r s' => ∃ j, GrownTo old p path off got j s' ∧ (r = true → j = k+buf.length)) s := by
  induction passes generalizing total s with
  | zero => exact ⟨_,hs,fun _ => by omega⟩
  | succ passes ih =>
    obtain ⟨f,hst,hf⟩ := hs.state
    unfold Client.writeFileFull
    split
    · rename_i hlt
      refine fetches_local rfl hst (by rw [hf.content]; exact fetching_take hp hs.lower hs.upper)
        fun c r f' s' _ hx hs' => ?_
      have hdrop : buf.drop total <+: (fetched old p).drop (k+total) := by
        rw [fetched_drop hp hs.lower]
        exact Buffer.prefix_drop hbuf total
      have hwlen := fetched_length hp
      rcases grown_write hf (by omega) hdrop hx with ⟨rfl,rfl⟩ | ⟨hpos,hr,hf'⟩
      · simp only [Program.bind,if_true]
        exact ⟨_,⟨⟨f',hs',hf⟩,hs.lower,hs.upper⟩,fun he => by cases he⟩
      · have hpos := hpos (List.ne_nil_of_length_pos (by rw [List.length_drop]; omega))
        rw [List.length_drop] at hr
        have hnext : GrownTo old p path off got (k+total+r) s' :=
          ⟨⟨f',hs',hf'⟩,by have := hs.lower; omega,by omega⟩
        simp only [Program.bind]
        split
        · exact ⟨_,hnext,fun he => by cases he⟩
        · rw [Nat.add_assoc] at hnext
          exact ih (by omega) (by omega) hnext
    · exact ⟨_,hs,fun _ => by omega⟩

theorem received_prefix {q : FilePacket} {once : ℤ}
    (hs : Stands old p f (some q) got s) (hq : q.offset = offsetOf old p) (h0 : 0 < once)
    (hfit : s.wire.received+once ≤ s.wire.sent.length) :
    (s.wire.sent.drop s.wire.received).take once.toNat <+: p.drop (offsetOf old p+got) ∧
      ((s.wire.sent.drop s.wire.received).take once.toNat).length = once.toNat := by
  constructor
  · rcases hs.announced.sent with he | ⟨q',hq',hpre⟩
    · rw [he] at hfit
      simp at hfit
      omega
    · rw [hs.offset] at hq'
      obtain rfl : q = q' := Option.some.inj hq'
      have hres : (resumeOffset q.offset p.length).toNat = offsetOf old p := by
        have hle : offsetOf old p ≤ p.length := offsetOf_le
        unfold resumeOffset
        rw [hq,if_neg (by omega)]
        omega
      rw [hres] at hpre
      rw [hs.received,← List.drop_drop]
      exact (List.take_prefix _ _).trans (hpre.drop got)
  · rw [List.length_take,List.length_drop]
    omega

theorem clientOnce_bounds {rem : ℤ} (h : 0 < rem) : 0 < Client.once rem ∧ Client.once rem ≤ rem := by
  unfold Client.once Client.bufferSize
  split <;> omega

theorem fetches_receivePart (hp : old.length ≠ p.length) {q : FilePacket}
    (hq : q.offset = offsetOf old p) (passes : ℕ) {k : ℕ} (hk : offsetOf old p+got = k)
    (hpasses : p.length ≤ passes+k) (hs : GrownTo old p path (some q) got k s) :
    Fetches old p path (Client.receivePart passes (p.length-k))
      (fun r s' => ∃ got' j, GrownTo old p path (some q) got' j s' ∧
        (r = 0 → j = p.length ∧ offsetOf old p+got' = p.length)) s := by
  induction passes generalizing got k s with
  | zero =>
    have := hs.upper
    exact ⟨got,k,hs,fun _ => ⟨by omega,by omega⟩⟩
  | succ passes ih =>
    have hupper := hs.upper
    unfold Client.receivePart
    split
    · rename_i hrem
      obtain ⟨h1,h2⟩ := clientOnce_bounds hrem
      obtain ⟨f,hst,hf⟩ := hs.state
      refine ⟨⟨grownTo_fetching hp hs,stands_asked hst,fun once ho => ?_⟩,fun ⟨w,c⟩ r s' ⟨hmoves,_⟩ hx => ?_⟩
      · cases ho
        refine ⟨q,hst.offset,?_⟩
        rw [hst.received,hq]
        omega
      have hw := stands_serves hst hmoves
      have hstep : clientSide.exec (.recvFull (Client.once (p.length-k))) () w c = some (r,s') := hx
      rcases clientSide_recvFull hstep with ⟨rfl,rfl⟩ | ⟨_,hfit,rfl,rfl⟩
      · exact ⟨got,k,⟨⟨f,hw,hf⟩,hs.lower,hs.upper⟩,fun he => by cases he⟩
      obtain ⟨hpre,hlen⟩ := received_prefix hw hq h1 hfit
      rw [hk] at hpre
      set buf := (w.wire.sent.drop w.wire.received).take (Client.once (p.length-k)).toNat with hbuf
      have hnext : GrownTo old p path (some q) (got+(Client.once (p.length-k)).toNat) (k+0)
          (w.setWire { w.wire with
            received := w.wire.received+(Client.once (p.length-k)).toNat }) := by
        refine ⟨⟨f,⟨hw.files,hw.asked,hw.offset,?_,hw.announced.hello,hw.announced.sent⟩,hf⟩,hs.lower,hs.upper⟩
        rw [← hw.received]
        rfl
      simp only [Program.bind]
      refine Machine.guarded_bind _ (Machine.guarded_mono _ ?_
        (fetches_writeFileFull hp (by omega) hpre buf.length (Nat.zero_le _)
          (by omega) hnext))
      rintro (_ | _) s₁ ⟨j,hj,hdone⟩
      · exact ⟨_,j,hj,fun he => by cases he⟩
      · obtain rfl := hdone rfl
        have he : (p.length : ℤ)-k-Client.once (p.length-k) = p.length-(k+buf.length : ℕ) := by
          omega
        simp only [if_true]
        rw [he]
        exact ih (by omega) (by omega) hj
    · exact ⟨got,k,hs,fun _ => ⟨by omega,by omega⟩⟩

theorem fetchDone_failed {r : ℤ} (hr : r ≠ 0) (hs : Stands old p f off got s)
    (hf : Fetching old p (f.content path)) : FetchDone old p path r s where
  file := by rw [hs.files]; exact hf
  asked := stands_asked hs
  success := fun h => absurd h hr

theorem fetches_closeFailed (hs : Stands old p f off got s) (hf : Fetching old p (f.content path)) :
    Fetches old p path closeFailed (FetchDone old p path) s := by
  refine fetches_local rfl hs hf fun c r f' s' _ hx hs' => ?_
  cases c <;> cases hx
  exact fetchDone_failed (by decide) hs' hf

theorem fetches_fillPart (hp : old.length ≠ p.length) {q : FilePacket}
    (hq : q.offset = offsetOf old p) {k : ℕ} (hk : offsetOf old p+got = k)
    (hs : GrownTo old p path (some q) got k s) :
    Fetches old p path (fillPart p.length k) (FetchDone old p path) s := by
  unfold fillPart
  refine Machine.guarded_bind _ (Machine.guarded_mono _ ?_
    (fetches_receivePart hp hq _ hk (by omega) hs))
  rintro r s₁ ⟨got',j,hj,hdone⟩
  obtain ⟨f,hst,hf⟩ := hj.state
  have hfile := fetching_take hp hj.lower hj.upper
  refine fetches_local rfl hst (by rw [hf.content]; exact hfile) fun c r' f' s₂ _ hx hs₂ => ?_
  cases c <;> cases hx
  have hcontent : s₂.files.content path = (fetched old p).take j := by
    rw [hs₂.files]
    exact hf.content
  refine ⟨by rw [hcontent]; exact hfile,stands_asked hs₂,fun hr => ?_⟩
  obtain ⟨rfl,hgot⟩ := hdone hr
  refine ⟨?_,q,hs₂.offset,?_⟩
  · rw [hcontent,← fetched_length hp,List.take_length]
  · rw [hs₂.received,hq]
    omega

theorem fetches_seekPart (hp : old.length ≠ p.length) {q : FilePacket}
    (hq : q.offset = offsetOf old p) (hs : Stands old p f (some q) 0 s)
    (hf : f.content path = (fetched old p).take (offsetOf old p)) (hout : f.output = some ⟨path,0⟩) :
    Fetches old p path (seekPart p.length (offsetOf old p)) (FetchDone old p path) s := by
  have hfile : Fetching old p (f.content path) := by
    rw [hf]
    exact fetching_take hp le_rfl offsetOf_le
  refine fetches_local rfl hs hfile fun c r f' s₁ _ hx hs₁ => ?_
  cases c with
  | ok =>
    have hx' : some (true,{ f with output := some ⟨path,(offsetOf old p : ℤ).toNat⟩ }) =
        some (r,f') := by
      simpa [Client.execute,hout] using hx
    cases hx'
    exact fetches_fillPart hp hq rfl ⟨⟨_,hs₁,hf,rfl⟩,le_rfl,offsetOf_le⟩
  | fault =>
    cases hx
    exact fetches_closeFailed hs₁ hfile
  | count n => cases hx

theorem content_put (f : Client.State) (path : Text) (c : Content) :
    (f.put path c).content path = c := by
  simp [State.put,State.content]

theorem fetches_open (hp : old.length ≠ p.length) {q : FilePacket}
    (hq : q.offset = offsetOf old p) (hs : Stands old p f (some q) 0 s) (hf : f.content path = old) :
    Fetches old p path
      (do if ← Client.perform (.openPart path) then
            if (offsetOf old p : ℤ) = 0 then
              if ← Client.perform (.ftruncate 0) then seekPart p.length (offsetOf old p) else closeFailed
            else seekPart p.length (offsetOf old p)
          else pure (-1)) (FetchDone old p path) s := by
  have hfile : Fetching old p (f.content path) := by
    rw [hf]
    exact fetching_old
  refine fetches_local rfl hs hfile fun c r f₁ s₁ _ hx hs₁ => ?_
  cases c with
  | fault =>
    cases hx
    exact fetchDone_failed (by decide) hs₁ hfile
  | count n => cases hx
  | ok =>
    cases hx
    have hf₁ : (f.openAt path (f.content path)).content path = old := by
      rw [← hf]
      exact content_put f path _
    simp only [Program.bind,if_true]
    split
    · rename_i hzero
      refine fetches_local rfl hs₁ (by rw [hf₁]; exact fetching_old) fun c r f₂ s₂ _ hx hs₂ => ?_
      cases c with
      | fault =>
        cases hx
        exact fetches_closeFailed hs₂ (by rw [hf₁]; exact fetching_old)
      | count n => cases hx
      | ok =>
        have hx' : some (true,(f.openAt path (f.content path)).put path []) = some (r,f₂) := by
          have he : Buffer.resize '\x00' old 0 = [] := by simp [Buffer.resize]
          rw [← hf₁] at he
          rw [← hx]
          simp only [Client.execute,State.openAt,le_refl,if_true,Int.toNat_zero]
          rw [← he]
          rfl
        cases hx'
        refine fetches_seekPart hp hq hs₂ ?_ rfl
        have hz : offsetOf old p = 0 := by omega
        rw [content_put,hz]
        rfl
    · rename_i hzero
      refine fetches_seekPart hp hq hs₁ ?_ rfl
      rw [hf₁,fetched_take hp (by omega)]

theorem stat_size (f : Client.State) (path : Text) :
    ((f.files.lookup path).map fun g => (g.length : ℤ)).getD 0 = (f.content path).length := by
  unfold State.content
  cases f.files.lookup path <;> rfl

theorem fetches_announce (task : GetsPartTask) (hp : 0 < p.length)
    (hs : Stands old p f none 0 s) (hf : f.content task.partFilePath = old) {hello : FilePacket}
    (hhello : hello.fileSize = p.length) :
    Fetches old p task.partFilePath
      (do if ← Client.perform (.sendFile (initFilePacket .gets task.fileName hello.fileSize
              (requestOffsetOf old.length hello.fileSize) none)) then
            if requestOffsetOf old.length hello.fileSize = hello.fileSize then pure 0
            else if ← Client.perform (.openPart task.partFilePath) then
              if requestOffsetOf old.length hello.fileSize = 0 then
                if ← Client.perform (.ftruncate 0) then
                  seekPart hello.fileSize (requestOffsetOf old.length hello.fileSize)
                else closeFailed
              else seekPart hello.fileSize (requestOffsetOf old.length hello.fileSize)
            else pure (-1)
          else pure (-1)) (FetchDone old p task.partFilePath) s := by
  have hfile : Fetching old p (f.content task.partFilePath) := by
    rw [hf]
    exact fetching_old
  rw [hhello,requestOffsetOf_eq]
  refine ⟨⟨by rw [hs.files]; exact hfile,stands_asked hs,nofun⟩,fun ⟨w,c⟩ r s₁ ⟨hmoves,_⟩ hx => ?_⟩
  have hw : Stands old p f none 0 w := stands_serves hs hmoves
  have hstep : clientSide.exec (.sendFile (initFilePacket .gets task.fileName p.length
    (offsetOf old p) none)) () w c = some (r,s₁) := hx
  rcases clientSide_sendFile hstep with ⟨rfl,rfl⟩ | ⟨rfl,hs₁⟩
  · exact fetchDone_failed (by decide) hw hfile
  have hst : Stands old p f (some (initFilePacket .gets task.fileName p.length (offsetOf old p) none)) 0
      s₁ := by
    rw [hs₁]
    refine ⟨hw.files,fun q hq => by cases hq; rfl,by simp [Link.setWire,hw.offset],hw.received,
      hw.announced.hello,?_⟩
    rcases hw.announced.sent with he | ⟨q,hq,_⟩
    · exact .inl he
    · rw [hw.offset] at hq
      cases hq
  simp only [Program.bind,if_true]
  split
  · rename_i heq
    have hlen : old.length = p.length := by
      unfold offsetOf at heq
      split at heq
      · omega
      · split at heq
        · assumption
        · omega
    refine ⟨by rw [hst.files]; exact hfile,stands_asked hst,fun _ => ⟨?_,_,hst.offset,?_⟩⟩
    · rw [hst.files,hf,fetched,if_neg (by omega),if_pos hlen]
    · rw [hst.received]
      simp only [initFilePacket]
      omega
  · rename_i hne
    have hlen : old.length ≠ p.length := by
      intro he
      refine hne ?_
      rw [offsetOf,if_neg (by omega),if_pos he]
    exact fetches_open hlen rfl hst hf

theorem fetches_runGetsPartTransfer (task : GetsPartTask) (hp : 0 < p.length)
    (hs : Stands old p f none 0 s) (hf : f.content task.partFilePath = old) :
    Fetches old p task.partFilePath (runGetsPartTransfer task)
      (FetchDone old p task.partFilePath) s := by
  have hfile : Fetching old p (f.content task.partFilePath) := by
    rw [hf]
    exact fetching_old
  refine ⟨⟨by rw [hs.files]; exact hfile,stands_asked hs,nofun⟩,fun ⟨w,c⟩ r s₁ ⟨hmoves,_⟩ hx => ?_⟩
  have hw := stands_serves hs hmoves
  have hstep : clientSide.exec .recvFile () w c = some (r,s₁) := hx
  have hfail : ∀ s, Stands old p f none 0 s → FetchDone old p task.partFilePath (-1) s :=
    fun s hs => fetchDone_failed (by decide) hs hfile
  obtain ⟨rfl,rfl | ⟨hello,rfl,hhello⟩⟩ := clientSide_recvFile hstep
  · exact hfail _ hw
  simp only [Program.bind]
  split
  · exact hfail _ hw
  · have hsize : hello.fileSize = p.length := by
      rcases hw.announced.hello hello hhello with he | he
      · omega
      · exact he
    refine fetches_local rfl hw hfile fun c r f' s₂ hok hx hs₂ => ?_
    cases c with
    | fault => exact absurd rfl (hok task.partFilePath rfl)
    | count n => cases hx
    | ok =>
      cases hx
      simp only [Program.bind]
      rw [stat_size,hf]
      exact fetches_announce task hp hs₂ hf hsize

end Client

end WindCloud
