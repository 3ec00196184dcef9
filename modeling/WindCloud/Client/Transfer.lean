import WindCloud.Client.Prepare

/-!
# Transferring a part

A thread opens its part file where the received bytes end, and appends what the
source sends. Whatever stops it, the file stays a beginning of the part; when
nothing fails, the file is the part.
-/

set_option autoImplicit false

namespace WindCloud
open CString Effect Function

namespace Client

/-- The first `k` entries of `w` in the file, and the handle behind them. -/
def State.filled (s : State) (path : Text) (w : Content) (k : ℕ) : State :=
  { s with files := s.files.insert path (w.take k), output := some ⟨path,k⟩ }

/-- The property is kept by what does not touch the files, and by writing a
beginning of `w`. -/
structure Carries (I : State → Prop) (path : Text) (w : Content) : Prop where
  same : ∀ {s s' : State}, I s → s'.env = s.env → s'.dirs = s.dirs → s'.files = s.files → I s'
  put : ∀ {s s' : State} (k : ℕ), I s → s'.env = s.env → s'.dirs = s.dirs →
    s'.files = s.files.insert path (w.take k) → I s'

structure Only (path : Text) (s s' : State) : Prop where
  files : ∀ p, p ≠ path → s'.files.lookup p = s.files.lookup p
  dirs : s'.dirs = s.dirs

theorem Carries.only {I : State → Prop} {path : Text} {w : Content} (h : Carries I path w)
    (s : State) : Carries (fun s' => I s' ∧ Only path s s') path w where
  same := fun hi he hd hf => ⟨h.same hi.1 he hd hf,fun p hp => by rw [hf]; exact hi.2.files p hp,
    hd.trans hi.2.dirs⟩
  put := fun k hi he hd hf => ⟨h.put k hi.1 he hd hf,
    fun p hp => by rw [hf,AList.lookup_insert_ne hp]; exact hi.2.files p hp,hd.trans hi.2.dirs⟩

section

variable {D : Download} {origin : PartIndex → ℕ} {allowed : PartIndex → Prop} {env : Environment}

theorem carries_part {i : PartIndex} (ha : allowed i) :
    Carries (Kept D origin allowed env) (D.partPath i) (slice D.content (origin i) i.val) where
  same := fun h he hd hf => kept_same h he hf fun _ hp => .inl (by rwa [hd] at hp)
  put := fun k h he hd hf => kept_put_part h ha (List.take_prefix k _) he hd hf

theorem carries_local {path : Text} (hp : ¬ D.Below path) (w : Content) :
    Carries (Kept D origin allowed env) path w where
  same := fun h he hd hf => kept_same h he hf fun _ hp => .inl (by rwa [hd] at hp)
  put := fun k h he hd hf => kept_put_local h hp he hd hf

end

/-- The source sends the part behind the offset it is asked for. -/
structure Honest (peer : Peer) (w : Content) : Prop where
  hello : peer.hello.fileSize = w.length
  answer : ∀ p : FilePacket, p.offset.toNat ≤ w.length → peer.answer p = w.drop p.offset.toNat

section Write

variable {ok : Op → State → Choice → Prop} {I : State → Prop} {s : State} {path : Text}
  {w buf : Content} {k : ℕ} {α : Type} {o : Op} {Q : α → State → Prop}

theorem holds_perform {f : o.Res → Client α} (hI : I s)
    (hok : ∀ r s', execute o s .ok = some (r,s') → Holds ok I (f r) Q s')
    (hfault : ¬ NoFault ok → ∀ r s', execute o s .fault = some (r,s') → Holds ok I (f r) Q s')
    (hcount : ∀ n r s', execute o s (.count n) = some (r,s') → Holds ok I (f r) Q s') :
    Holds ok I (perform o >>= f) Q s := by
  refine holds_op hI fun c r s' hc hx => ?_
  cases c with
  | ok => exact hok r s' hx
  | fault => exact hfault (fault_not hc) r s' hx
  | count n => exact hcount n r s' hx

theorem emit_filled (hk : k ≤ w.length) (hd : buf <+: w.drop k) :
    (s.filled path w k).emit ⟨path,k⟩ buf = s.filled path w (k+buf.length) := by
  have hc : (s.filled path w k).content path = w.take k := by
    simp [State.content,State.filled]
  rw [State.emit,hc,Buffer.splice_take _ hk hd,State.put]
  simp only [State.filled,AList.insert_insert]

theorem prefix_length {buf w : Content} {k : ℕ} (hk : k ≤ w.length) (hd : buf <+: w.drop k) :
    k+buf.length ≤ w.length := by
  have := hd.length_le
  rw [List.length_drop] at this
  omega

theorem holds_writeFileFull (hI : ∀ j, I (s.filled path w j)) (hk : k ≤ w.length)
    (hd : buf <+: w.drop k) {passes : ℕ} (total : ℕ) (ht : total ≤ buf.length)
    (hp : buf.length ≤ passes+total) :
    Holds ok I (writeFileFull buf passes total)
      (fun r s' => ∃ j, j ≤ w.length ∧ s' = s.filled path w j ∧
        (r = true → j = k+buf.length) ∧ (r = false → ¬ NoFault ok))
      (s.filled path w (k+total)) := by
  have hfit := prefix_length hk hd
  induction passes generalizing total with
  | zero => exact ⟨hI _,k+total,by omega,rfl,fun _ => by omega,by simp⟩
  | succ passes ih =>
    unfold writeFileFull
    split
    · rename_i hlt
      have hdrop := Buffer.prefix_drop hd total
      have hlen : (buf.drop total).length = buf.length-total := List.length_drop
      refine holds_perform (hI _) ?_ ?_ ?_
      · intro r s' hx
        obtain ⟨rfl,rfl⟩ := Prod.mk.inj (Option.some.inj hx)
        have hne : (buf.drop total).length ≠ 0 := by omega
        rw [if_neg hne,emit_filled (by omega) hdrop,Nat.add_assoc]
        exact ih _ (by omega) (by omega)
      · intro hf r s' hx
        obtain ⟨rfl,rfl⟩ := Prod.mk.inj (Option.some.inj hx)
        rw [if_pos rfl]
        exact ⟨hI _,k+total,by omega,rfl,by simp,fun _ => hf⟩
      · intro n r s' hx
        have hx' : (if 0 < n ∧ n < (buf.drop total).length then
            some (n,(s.filled path w (k+total)).emit ⟨path,k+total⟩ ((buf.drop total).take n))
            else none) = some (r,s') := hx
        split at hx'
        · rename_i hn
          obtain ⟨rfl,rfl⟩ := Prod.mk.inj (Option.some.inj hx')
          have htake : ((buf.drop total).take n).length = n := by
            rw [List.length_take]
            omega
          have hne : n ≠ 0 := by omega
          rw [if_neg hne,emit_filled (by omega) ((List.take_prefix n _).trans hdrop),htake,
            Nat.add_assoc]
          exact ih _ (by omega) (by omega)
        · cases hx'
    · exact ⟨hI _,k+total,by omega,rfl,fun _ => by omega,by simp⟩

end Write

section Receive

variable {ok : Op → State → Choice → Prop} {I : State → Prop} {s : State} {path : Text}
  {w : Content} {k : ℕ}

theorem once_eq {remaining : ℕ} : once remaining = (min remaining bufferSize : ℕ) := by
  unfold once
  split <;> omega

theorem holds_receivePart (hI : ∀ st j, I (State.filled { s with stream := st } path w j))
    {passes : ℕ} (hk : k ≤ w.length) (hp : w.length ≤ passes+k) :
    Holds ok I (receivePart passes ((w.length : ℤ)-k))
      (fun _ s' => ∃ st j, j ≤ w.length ∧ s' = State.filled { s with stream := st } path w j ∧
        (NoFault ok → j = w.length))
      (State.filled { s with stream := w.drop k } path w k) := by
  induction passes generalizing k with
  | zero => exact ⟨hI _ _,_,k,hk,rfl,fun _ => by omega⟩
  | succ passes ih =>
    unfold receivePart
    split
    · rename_i hlt
      have hrem : (w.length : ℤ)-k = ((w.length-k : ℕ) : ℤ) := by omega
      rw [hrem,once_eq]
      have hlen : (w.drop k).length = w.length-k := List.length_drop
      have hmin : 0 < bufferSize := by decide
      refine holds_perform (hI _ _) ?_ ?_ ?_
      · intro r s' hx
        have hx' : (if ((min (w.length-k) bufferSize : ℕ) : ℤ) ≤ (w.drop k).length then
            some (some ((w.drop k).take ((min (w.length-k) bufferSize : ℕ) : ℤ).toNat),
              State.filled { s with
                stream := (w.drop k).drop ((min (w.length-k) bufferSize : ℕ) : ℤ).toNat }
                path w k)
            else some (none,State.filled { s with stream := w.drop k } path w k)) =
              some (r,s') := hx
        rw [if_pos (by omega),Int.toNat_natCast] at hx'
        obtain ⟨rfl,rfl⟩ := Prod.mk.inj (Option.some.inj hx')
        generalize hn : min (w.length-k) bufferSize = n
        have htake : ((w.drop k).take n).length = n := by
          rw [List.length_take]
          omega
        refine holds_bind (holds_writeFileFull (hI _) hk (List.take_prefix n _) 0 (Nat.zero_le _)
          (Nat.le_refl _)) ?_
        rintro written s' hs' ⟨j,hj,rfl,hwritten,hfault⟩
        cases written with
        | true =>
          have hjn := hwritten rfl
          rw [htake] at hjn
          subst hjn
          rw [if_pos rfl,List.drop_drop,
            show ((w.length-k : ℕ) : ℤ)-(n : ℤ) = (w.length : ℤ)-((k+n : ℕ) : ℤ) by omega]
          exact ih hj (by omega)
        | false =>
          rw [if_neg (by decide)]
          exact ⟨hs',_,j,hj,rfl,fun hn => absurd hn (hfault rfl)⟩
      · intro hf r s' hx
        obtain ⟨rfl,rfl⟩ := Prod.mk.inj (Option.some.inj hx)
        exact ⟨hI _ _,_,k,hk,rfl,fun hn => absurd hn hf⟩
      · intro n r s' hx
        cases hx
    · exact ⟨hI _ _,_,k,hk,rfl,fun _ => by omega⟩

end Receive

section Thread

variable {ok : Op → State → Choice → Prop} {I : State → Prop} {s : State} {path : Text}
  {w : Content} {k : ℕ} {task : GetsPartTask}

/-- When nothing fails, the file is the part, unless the part has no bytes. -/
def Fetched (ok : Op → State → Choice → Prop) (path : Text) (w : Content) (_ : ℤ) (s : State) :
    Prop := NoFault ok → w ≠ [] → s.files.lookup path = some w

theorem holds_closeFailed (hI : Carries I path w) (h : I s) (hf : ¬ NoFault ok) :
    Holds ok I closeFailed (Fetched ok path w) s := by
  unfold closeFailed
  refine holds_perform h ?_ ?_ ?_
  · intro r s' hx
    obtain ⟨_,rfl⟩ := Prod.mk.inj (Option.some.inj hx)
    exact ⟨hI.same h rfl rfl rfl,fun hn => absurd hn hf⟩
  · intro _ r s' hx
    cases hx
  · intro n r s' hx
    cases hx

theorem holds_fillPart (hI : Carries I path w) (h : I s) (hk : k ≤ w.length) :
    Holds ok I (fillPart w.length k) (Fetched ok path w)
      (State.filled { s with stream := w.drop k } path w k) := by
  unfold fillPart
  have hput : ∀ st j, I (State.filled { s with stream := st } path w j) :=
    fun st j => hI.put j h rfl rfl rfl
  refine holds_bind (holds_receivePart hput hk (by omega)) ?_
  rintro r _ - ⟨st,j,_,rfl,hj⟩
  refine holds_perform (hput st j) ?_ ?_ ?_
  · intro r s' hx
    obtain ⟨_,rfl⟩ := Prod.mk.inj (Option.some.inj hx)
    refine ⟨hI.same (hput st j) rfl rfl rfl,fun hn _ => ?_⟩
    simp [State.filled,hj hn]
  · intro _ r s' hx
    cases hx
  · intro n r s' hx
    cases hx

theorem execute_lseek {h : Handle} (ho : s.output = some h) :
    execute (.lseek k) s .ok = some (true,{ s with output := some ⟨h.path,k⟩ }) := by
  simp [execute,ho]

theorem execute_ftruncate {h : Handle} (ho : s.output = some h) :
    execute (.ftruncate 0) s .ok =
      some (true,s.put h.path (Buffer.resize '\x00' (s.content h.path) 0)) := by
  simp [execute,ho]

theorem holds_seekPart (hI : Carries I path w) (h : I s) (hk : k ≤ w.length) (p : ℕ) :
    Holds ok I (seekPart w.length k) (Fetched ok path w)
      { State.filled { s with stream := w.drop k } path w k with output := some ⟨path,p⟩ } := by
  have hput : I { State.filled { s with stream := w.drop k } path w k with
      output := some ⟨path,p⟩ } := hI.put k h rfl rfl rfl
  unfold seekPart
  refine holds_perform hput ?_ ?_ ?_
  · intro r s' hx
    rw [execute_lseek rfl] at hx
    obtain ⟨rfl,rfl⟩ := Prod.mk.inj (Option.some.inj hx)
    exact holds_fillPart hI h hk
  · intro hf r s' hx
    obtain ⟨rfl,rfl⟩ := Prod.mk.inj (Option.some.inj hx)
    exact holds_closeFailed hI hput hf
  · intro n r s' hx
    cases hx

theorem requestOffsetOf_le {a b : ℕ} (h : a ≤ b) : requestOffsetOf a b = a := by
  unfold requestOffsetOf
  split
  · rfl
  · split <;> omega

theorem requestOffset_file (hf : ∀ f, s.files.lookup path = some f → f <+: w) {st : Option ℤ}
    (hst : st = (s.files.lookup path).map (fun g => (g.length : ℤ)) ∨ st = none ∧ ¬ NoFault ok) :
    ∃ k, k ≤ w.length ∧ requestOffsetOf (st.getD 0) w.length = (k : ℤ) ∧
      (0 < k → s.files.lookup path = some (w.take k)) := by
  have hnone : requestOffsetOf 0 w.length = ((0 : ℕ) : ℤ) := requestOffsetOf_le (Nat.zero_le _)
  rcases hst with rfl | ⟨rfl,_⟩
  · cases hl : s.files.lookup path with
    | none => exact ⟨0,Nat.zero_le _,hnone,by simp⟩
    | some f =>
      have hp := hf f hl
      exact ⟨f.length,hp.length_le,requestOffsetOf_le hp.length_le,
        fun _ => by rw [← List.prefix_iff_eq_take.mp hp]⟩
  · exact ⟨0,Nat.zero_le _,hnone,by simp⟩

theorem content_take (hf : ∀ f, s.files.lookup path = some f → f <+: w) :
    ∃ j, s.content path = w.take j := by
  cases hl : s.files.lookup path with
  | none => exact ⟨0,by simp [State.content,hl]⟩
  | some f => exact ⟨f.length,by rw [State.content,hl]; exact List.prefix_iff_eq_take.mp (hf f hl)⟩

theorem holds_openPart (hI : Carries I path w) (h : I s)
    (hf : ∀ f, s.files.lookup path = some f → f <+: w) (hk : k ≤ w.length)
    (hfile : 0 < k → s.files.lookup path = some (w.take k)) :
    Holds ok I
      (do if ← perform (.openPart path) then
            if (k : ℤ) = 0 then
              if ← perform (.ftruncate 0) then seekPart w.length k else closeFailed
            else seekPart w.length k
          else pure (-1))
      (Fetched ok path w) { s with stream := w.drop k } := by
  obtain ⟨j,hj⟩ := content_take hf
  have hs : I { s with stream := w.drop k } := hI.same h rfl rfl rfl
  refine holds_perform hs ?_ ?_ ?_
  · intro r s' hx
    obtain ⟨rfl,rfl⟩ := Prod.mk.inj (Option.some.inj hx)
    have hopen : I (State.openAt { s with stream := w.drop k } path
        (State.content { s with stream := w.drop k } path)) :=
      hI.put j hs rfl rfl (by rw [← hj]; rfl)
    rw [if_pos rfl]
    by_cases hk0 : k = 0
    · subst hk0
      rw [if_pos (by rfl)]
      refine holds_perform hopen ?_ ?_ ?_
      · intro r s' hx
        rw [execute_ftruncate rfl] at hx
        obtain ⟨rfl,rfl⟩ := Prod.mk.inj (Option.some.inj hx)
        have hstate : (State.openAt { s with stream := w.drop 0 } path
            (State.content { s with stream := w.drop 0 } path)).put path
              (Buffer.resize '\x00' ((State.openAt { s with stream := w.drop 0 } path
                (State.content { s with stream := w.drop 0 } path)).content path)
                0) =
            { State.filled { s with stream := w.drop 0 } path w 0 with
              output := some ⟨path,0⟩ } := by
          simp [State.openAt,State.put,State.filled,Buffer.resize,AList.insert_insert]
        rw [if_pos rfl,hstate]
        exact holds_seekPart hI h hk 0
      · intro hfault r s' hx
        obtain ⟨rfl,rfl⟩ := Prod.mk.inj (Option.some.inj hx)
        exact holds_closeFailed hI hopen hfault
      · intro n r s' hx
        cases hx
    · rw [if_neg (by omega)]
      have hc : State.content { s with stream := w.drop k } path = w.take k := by
        have hl := hfile (by omega)
        simp [State.content,hl]
      rw [hc]
      exact holds_seekPart hI h hk 0
  · intro hfault r s' hx
    obtain ⟨rfl,rfl⟩ := Prod.mk.inj (Option.some.inj hx)
    exact ⟨hs,fun hn => absurd hn hfault⟩
  · intro n r s' hx
    cases hx

theorem holds_runGetsPartTransfer (hI : Carries I task.partFilePath w) (h : I s)
    (hp : Honest s.peer w) (hf : ∀ f, s.files.lookup task.partFilePath = some f → f <+: w) :
    Holds ok I (runGetsPartTransfer task) (Fetched ok task.partFilePath w) s := by
  unfold runGetsPartTransfer
  refine holds_perform h ?_ ?_ ?_
  · intro r s' hx
    obtain ⟨rfl,rfl⟩ := Prod.mk.inj (Option.some.inj hx)
    dsimp only
    rw [hp.hello,if_neg (by omega)]
    refine holds_stat h fun st hst => ?_
    obtain ⟨k,hk,hoff,hfile⟩ := requestOffset_file hf hst
    rw [hoff]
    refine holds_perform h ?_ ?_ ?_
    · intro r s' hx
      obtain ⟨rfl,rfl⟩ := Prod.mk.inj (Option.some.inj hx)
      rw [hp.answer _ (by simpa [initFilePacket] using hk)]
      simp only [initFilePacket,Int.toNat_natCast,if_true]
      split
      · rename_i hfull
        refine ⟨hI.same h rfl rfl rfl,fun _ hne => ?_⟩
        have hkw : k = w.length := by omega
        have hpos : 0 < w.length := List.length_pos_of_ne_nil hne
        have hl := hfile (by omega)
        rwa [hkw,List.take_length] at hl
      · exact holds_openPart hI h hf hk hfile
    · intro hfault r s' hx
      obtain ⟨rfl,rfl⟩ := Prod.mk.inj (Option.some.inj hx)
      exact ⟨h,fun hn => absurd hn hfault⟩
    · intro n r s' hx
      cases hx
  · intro hfault r s' hx
    obtain ⟨rfl,rfl⟩ := Prod.mk.inj (Option.some.inj hx)
    exact ⟨h,fun hn => absurd hn hfault⟩
  · intro n r s' hx
    cases hx

theorem holds_closeSocket {result : ℤ} (h : I s)
    (hr : Fetched ok path w result s) :
    Holds ok I (closeSocket result) (Fetched ok path w) s := by
  unfold closeSocket
  refine holds_perform h ?_ ?_ ?_
  · intro r s' hx
    obtain ⟨_,rfl⟩ := Prod.mk.inj (Option.some.inj hx)
    exact ⟨h,hr⟩
  · intro _ r s' hx
    cases hx
  · intro n r s' hx
    cases hx

/-- A part thread leaves a beginning of its part wherever it stops. -/
theorem holds_getsPartThreadFunc (hI : Carries I task.partFilePath w) (h : I s)
    (hp : Honest (s.env.source task.serverIp task.serverPort task.ticket) w)
    (hf : ∀ f, s.files.lookup task.partFilePath = some f → f <+: w) :
    Holds ok I (getsPartThreadFunc task) (Fetched ok task.partFilePath w) s := by
  unfold getsPartThreadFunc
  refine holds_perform h ?_ ?_ ?_
  · intro r s₁ hx
    obtain ⟨_,rfl⟩ := Prod.mk.inj (Option.some.inj hx)
    have h₁ : I { s with address := (task.serverIp,task.serverPort) } := hI.same h rfl rfl rfl
    refine holds_perform h₁ ?_ ?_ ?_
    · intro r s₂ hx
      obtain ⟨rfl,rfl⟩ := Prod.mk.inj (Option.some.inj hx)
      rw [if_pos rfl]
      refine holds_perform h₁ ?_ ?_ ?_
      · intro r s₃ hx
        obtain ⟨rfl,rfl⟩ := Prod.mk.inj (Option.some.inj hx)
        rw [if_pos rfl]
        refine holds_bind (holds_runGetsPartTransfer hI (hI.same h₁ rfl rfl rfl) hp hf) ?_
        exact fun result s₄ h₄ hr => holds_closeSocket h₄ hr
      · intro hfault r s₃ hx
        obtain ⟨rfl,rfl⟩ := Prod.mk.inj (Option.some.inj hx)
        exact holds_closeSocket h₁ fun hn => absurd hn hfault
      · intro n r s₃ hx
        cases hx
    · intro hfault r s₂ hx
      obtain ⟨rfl,rfl⟩ := Prod.mk.inj (Option.some.inj hx)
      exact holds_closeSocket h₁ fun hn => absurd hn hfault
    · intro n r s₂ hx
      cases hx
  · intro _ r s' hx
    cases hx
  · intro n r s' hx
    cases hx

end Thread

end Client

end WindCloud
