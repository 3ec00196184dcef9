import WindCloud.Client.Transfer

/-!
# Finishing a download

The part files are copied behind each other into the local file. They make up
the content when every part has its file; the hash is then right, and the task
directory is removed.
-/

set_option autoImplicit false

namespace WindCloud
open CString Effect Function

namespace Client

section Copy

variable {ok : Op → State → Choice → Prop} {I : State → Prop} {s : State} {path part : Text}
  {w f : Content} {base : ℕ}

theorem behind_filled (hne : part ≠ path) (hf : s.files.lookup part = some f) (k pos size : ℕ) :
    (s.filled path w k).behind ⟨part,pos⟩ size = (f.drop pos).take size := by
  have hl : (s.files.insert path (w.take k)).lookup part = some f := by
    rw [AList.lookup_insert_ne hne]
    exact hf
  simp only [State.behind,State.content,State.filled]
  rw [hl]
  rfl

theorem read_prefix (hf : f <+: w.drop base) (pos n : ℕ) :
    (f.drop pos).take n <+: w.drop (base+pos) :=
  (List.take_prefix n _).trans (Buffer.prefix_drop hf pos)

theorem holds_copyPart (hI : ∀ x j, I (State.filled { s with input := x } path w j))
    (hne : part ≠ path) (hl : s.files.lookup part = some f) (hb : base ≤ w.length)
    (hf : f <+: w.drop base) {passes : ℕ} (pos : ℕ) (hpos : pos ≤ f.length)
    (hp : f.length < passes+pos) :
    Holds ok I (copyPart passes)
      (fun r s' => ∃ x j, j ≤ w.length ∧ s' = State.filled { s with input := x } path w j ∧
        (r = true → j = base+f.length) ∧ (r = false → ¬ NoFault ok))
      (State.filled { s with input := some ⟨part,pos⟩ } path w (base+pos)) := by
  have hfit := prefix_length hb hf
  induction passes generalizing pos with
  | zero => omega
  | succ passes ih =>
    have hstep : ∀ n q buf, buf = (f.drop pos).take n → q = pos+buf.length → 0 < n →
        Holds ok I
          (if buf = [] then pure true
            else do
              if ← writeFileFull buf buf.length 0 then copyPart passes else pure false)
          (fun r s' => ∃ x j, j ≤ w.length ∧ s' = State.filled { s with input := x } path w j ∧
            (r = true → j = base+f.length) ∧ (r = false → ¬ NoFault ok))
          (State.filled { s with input := some ⟨part,q⟩ } path w (base+pos)) := by
      rintro n q buf hbuf rfl hn
      have hlen : buf.length = min n (f.length-pos) := by
        rw [hbuf,List.length_take,List.length_drop]
      split
      · rename_i hnil
        rw [hnil,List.length_nil] at hlen
        exact ⟨hI _ _,_,_,by omega,rfl,fun _ => by omega,by simp⟩
      · rename_i hnil
        have hbpos := List.length_pos_of_ne_nil hnil
        have hpre : buf <+: w.drop (base+pos) := by
          rw [hbuf]
          exact read_prefix hf pos n
        refine holds_bind (holds_writeFileFull (hI _) (by omega) hpre 0 (Nat.zero_le _)
          (Nat.le_refl _)) ?_
        rintro written s' hs' ⟨j,hj,rfl,hwritten,hfault⟩
        cases written with
        | true =>
          rw [if_pos rfl,hwritten rfl,Nat.add_assoc]
          exact ih (pos+buf.length) (by omega) (by omega)
        | false =>
          rw [if_neg (by decide)]
          exact ⟨hs',_,j,hj,rfl,by simp,fun _ => hfault rfl⟩
    unfold copyPart
    have hread : ∀ n, (State.filled { s with input := some ⟨part,pos⟩ } path w
        (base+pos)).behind ⟨part,pos⟩ n = (f.drop pos).take n := behind_filled hne hl _ pos
    refine holds_perform (hI _ _) ?_ ?_ ?_
    · intro r s' hx
      obtain ⟨rfl,rfl⟩ := Prod.mk.inj (Option.some.inj hx)
      exact hstep bufferSize _ _ (hread bufferSize) rfl (by decide)
    · intro hfault r s' hx
      obtain ⟨rfl,rfl⟩ := Prod.mk.inj (Option.some.inj hx)
      exact ⟨hI _ _,_,_,by omega,rfl,by simp,fun _ => hfault⟩
    · intro n r s' hx
      have hx' : (if 0 < n ∧ n < ((State.filled { s with input := some ⟨part,pos⟩ } path w
          (base+pos)).behind ⟨part,pos⟩ bufferSize).length then
            some (some ((State.filled { s with input := some ⟨part,pos⟩ } path w
              (base+pos)).behind ⟨part,pos⟩ n),
              State.filled { s with input := some ⟨part,pos+n⟩ } path w (base+pos))
          else none) = some (r,s') := hx
      split at hx'
      · rename_i hn
        obtain ⟨rfl,rfl⟩ := Prod.mk.inj (Option.some.inj hx')
        have hlen : ((State.filled { s with input := some ⟨part,pos⟩ } path w
            (base+pos)).behind ⟨part,pos⟩ n).length = n := by
          rw [hread,List.length_take,List.length_drop]
          rw [hread,List.length_take,List.length_drop] at hn
          omega
        exact hstep n _ _ (hread n) (by rw [hlen]) hn.1
      · cases hx'

end Copy

section Merge

variable {D : Download} {ok : Op → State → Choice → Prop} {I : State → Prop} {s : State}
  {path : Text} {w : Content} {m : MultipartTaskMeta} {n : ℕ}

/-- A part file is the whole part wherever it exists. -/
def Whole (D : Download) (n : ℕ) (s : State) : Prop :=
  ∀ (i : PartIndex) (f : Content), i.val < n → s.files.lookup (D.partPath i) = some f →
    f = slice D.content n i.val

def State.held (s : State) (m : MultipartTaskMeta) (i : PartIndex) : Option Content :=
  s.files.lookup (m.parts i).partFilePath

/-- The files there are make up `w` from `k` on, one behind the other. -/
def Joined (held : PartIndex → Option Content) (w : Content) : List PartIndex → ℕ → Prop
  | [], k => k = w.length
  | i::is, k => ∀ f ∈ held i, f <+: w.drop k ∧ Joined held w is (k+f.length)

theorem joined_whole (hm : Cut D n m) (hw : Whole D n s) {is : List PartIndex} {k : ℕ}
    (his : is.map Fin.val = List.range' k (n-k)) (hk : k ≤ n) :
    Joined (s.held m) D.content is (partStart D.content.length n k) := by
  induction is generalizing k with
  | nil =>
    have hkn : k = n := by
      have := congrArg List.length his
      simp at this
      omega
    subst hkn
    exact partStart_self hm.pos
  | cons i is ih =>
    have hlen := congrArg List.length his
    simp only [List.length_map,List.length_range',List.length_cons] at hlen
    have hkn : n-k = (n-(k+1))+1 := by omega
    rw [hkn,List.range'_succ,List.map_cons] at his
    obtain ⟨rfl,his⟩ := List.cons.inj his
    have hin : i.val < n := by omega
    intro f hf
    rw [State.held,hm.path i hin] at hf
    obtain rfl := hw i f hin hf
    refine ⟨List.take_prefix _ _,?_⟩
    rw [slice_length _ hin,← partStart_succ]
    exact ih his hin

theorem execute_openInput_none {p : Text} (h : s.files.lookup p = none) :
    execute (.openInput p) s .ok = some (none,s) := by
  simp [execute,h]

theorem execute_openInput_some {p : Text} {f : Content} (h : s.files.lookup p = some f) :
    execute (.openInput p) s .ok = some (some f.length,{ s with input := some ⟨p,0⟩ }) := by
  simp [execute,h]

theorem holds_mergeParts (hI : ∀ x j, I (State.filled { s with input := x } path w j))
    {is : List PartIndex} (hpath : ∀ i ∈ is, (m.parts i).partFilePath ≠ path) {k : ℕ}
    (hk : k ≤ w.length) (hj : Joined (s.held m) w is k) (x : Option Handle) :
    Holds ok I (mergeParts m is)
      (fun r s' => ∃ x j, j ≤ w.length ∧ s' = State.filled { s with input := x } path w j ∧
        (r = true → j = w.length ∧ ∀ i ∈ is, s.held m i ≠ none) ∧
        (r = false → ¬ NoFault ok ∨ ∃ i ∈ is, s.held m i = none))
      (State.filled { s with input := x } path w k) := by
  induction is generalizing k x with
  | nil => exact ⟨hI _ _,_,_,hk,rfl,fun _ => ⟨hj,by simp⟩,by simp⟩
  | cons i is ih =>
    have hne := hpath i (by simp)
    unfold mergeParts
    refine holds_perform (hI _ _) ?_ ?_ ?_
    · intro r s' hx
      have hopen : (s.files.insert path (w.take k)).lookup (m.parts i).partFilePath =
          s.held m i := AList.lookup_insert_ne hne
      cases hl : s.held m i with
      | none =>
        rw [execute_openInput_none (hopen.trans hl)] at hx
        obtain ⟨rfl,rfl⟩ := Prod.mk.inj (Option.some.inj hx)
        exact ⟨hI _ _,_,_,hk,rfl,by simp,fun _ => .inr ⟨i,by simp,hl⟩⟩
      | some f =>
        rw [execute_openInput_some (hopen.trans hl)] at hx
        obtain ⟨rfl,rfl⟩ := Prod.mk.inj (Option.some.inj hx)
        obtain ⟨hpre,hrest⟩ := hj f hl
        refine holds_bind (holds_copyPart hI hne hl hk hpre 0 (Nat.zero_le _) (by omega)) ?_
        rintro copied _ hs' ⟨y,j,hjw,rfl,hcopied,hfault⟩
        refine holds_perform hs' ?_ ?_ ?_
        · intro r s' hx
          obtain ⟨_,rfl⟩ := Prod.mk.inj (Option.some.inj hx)
          cases copied with
          | true =>
            have hnext : j = k+f.length := hcopied rfl
            rw [if_pos rfl,hnext]
            refine Machine.always_mono _ ?_
              (ih (fun j hj => hpath j (by simp [hj])) (hnext ▸ hjw) hrest none)
            rintro merged _ - ⟨z,j',hj',rfl,htrue,hfalse⟩
            refine ⟨z,j',hj',rfl,fun hr => ⟨(htrue hr).1,fun i' hi' => ?_⟩,fun hr => ?_⟩
            · rcases List.mem_cons.mp hi' with rfl | hi'
              · rw [hl]
                simp
              · exact (htrue hr).2 i' hi'
            · rcases hfalse hr with h | ⟨i',hi',h⟩
              · exact .inl h
              · exact .inr ⟨i',List.mem_cons_of_mem _ hi',h⟩
          | false =>
            rw [if_neg (by decide)]
            exact ⟨hI none j,none,j,hjw,rfl,by simp,fun _ => .inl (hfault rfl)⟩
        · intro _ r s' hx
          cases hx
        · intro n r s' hx
          cases hx
    · intro hfault r s' hx
      obtain ⟨rfl,rfl⟩ := Prod.mk.inj (Option.some.inj hx)
      exact ⟨hI _ _,_,_,hk,rfl,by simp,fun _ => .inl hfault⟩
    · intro n r s' hx
      cases hx

theorem holds_mergePartFiles (hI : Carries I path w) (h : I s)
    (hpath : ∀ i ∈ m.indices, (m.parts i).partFilePath ≠ path)
    (hj : Joined (s.held m) w m.indices 0) :
    Holds ok I (mergePartFiles path m)
      (fun r s' => (∀ p, p ≠ path → s'.files.lookup p = s.files.lookup p) ∧ s'.dirs = s.dirs ∧
        (r = true → s'.files.lookup path = some w ∧ ∀ i ∈ m.indices, s.held m i ≠ none) ∧
        (r = false → ¬ NoFault ok ∨ ∃ i ∈ m.indices, s.held m i = none)) s := by
  have hput : ∀ x j, I (State.filled { s with input := x } path w j) :=
    fun x j => hI.put j h rfl rfl rfl
  unfold mergePartFiles
  refine holds_perform h ?_ ?_ ?_
  · intro r s' hx
    obtain ⟨rfl,rfl⟩ := Prod.mk.inj (Option.some.inj hx)
    rw [if_pos rfl]
    have hopen : s.openAt path [] = State.filled { s with input := s.input } path w 0 := by
      simp [State.openAt,State.put,State.filled]
    rw [hopen]
    refine holds_bind (holds_mergeParts hput hpath (Nat.zero_le _) hj s.input) ?_
    rintro merged _ hs' ⟨x,j,_,rfl,htrue,hfalse⟩
    refine holds_perform hs' ?_ ?_ ?_
    · intro r s' hx
      obtain ⟨_,rfl⟩ := Prod.mk.inj (Option.some.inj hx)
      refine ⟨hI.same hs' rfl rfl rfl,fun p hp => ?_,rfl,fun hr => ⟨?_,(htrue hr).2⟩,hfalse⟩
      · exact AList.lookup_insert_ne hp
      · simp [State.filled,(htrue hr).1]
    · intro _ r s' hx
      cases hx
    · intro n r s' hx
      cases hx
  · intro hfault r s' hx
    obtain ⟨rfl,rfl⟩ := Prod.mk.inj (Option.some.inj hx)
    exact ⟨h,fun _ _ => rfl,rfl,by simp,fun _ => .inl hfault⟩
  · intro n r s' hx
    cases hx

end Merge

section Cleanup

variable {D : Download} {ok : Op → State → Choice → Prop} {origin : PartIndex → ℕ}
  {allowed : PartIndex → Prop} {env : Environment} {s : State} {m : MultipartTaskMeta} {n : ℕ}
  {α : Type} {Q : α → State → Prop}

/-- Files have gone from the task directory, and nothing else has changed. -/
structure Cleared (D : Download) (s s' : State) : Prop where
  outside : ∀ p, ¬ D.Below p → s'.files.lookup p = s.files.lookup p
  gone : ∀ p, s.files.lookup p = none → s'.files.lookup p = none
  dirs : s'.dirs = s.dirs

theorem Cleared.trans {s₁ s' : State} (h : Cleared D s s₁) (h' : Cleared D s₁ s') :
    Cleared D s s' where
  outside := fun p hp => (h'.outside p hp).trans (h.outside p hp)
  gone := fun p hp => h'.gone p (h.gone p hp)
  dirs := h'.dirs.trans h.dirs

theorem holds_unlink {p : Text} (hp : D.Below p) {f : Bool → Client α}
    (h : Kept D origin allowed env s)
    (hf : ∀ r s', Kept D origin allowed env s' → Cleared D s s' →
      (NoFault ok → s'.files.lookup p = none) → Holds ok (Kept D origin allowed env) (f r) Q s') :
    Holds ok (Kept D origin allowed env) (perform (.unlink p) >>= f) Q s := by
  refine holds_perform h ?_ ?_ ?_
  · intro r s' hx
    obtain ⟨_,rfl⟩ := Prod.mk.inj (Option.some.inj hx)
    refine hf _ _ (kept_erase h rfl rfl rfl) ⟨fun q hq => ?_,fun q hq => ?_,rfl⟩
      fun _ => AList.lookup_erase _ _
    · exact AList.lookup_erase_ne fun hqp => hq (hqp ▸ hp)
    · by_cases hqp : q = p
      · rw [hqp]
        exact AList.lookup_erase _ _
      · exact (AList.lookup_erase_ne hqp).trans hq
  · intro hfault r s' hx
    obtain ⟨_,rfl⟩ := Prod.mk.inj (Option.some.inj hx)
    exact hf _ _ h ⟨fun _ _ => rfl,fun _ hq => hq,rfl⟩ fun hn => absurd hn hfault
  · intro n r s' hx
    cases hx

theorem holds_unlinkParts (hm : Cut D n m) {is : List PartIndex} (his : ∀ i ∈ is, i.val < n)
    (h : Kept D origin allowed env s) :
    Holds ok (Kept D origin allowed env) (unlinkParts is m)
      (fun _ s' => Cleared D s s' ∧
        (NoFault ok → ∀ i ∈ is, s'.files.lookup (D.partPath i) = none)) s := by
  induction is generalizing s with
  | nil => exact ⟨h,⟨fun _ _ => rfl,fun _ hq => hq,rfl⟩,by simp⟩
  | cons i is ih =>
    unfold unlinkParts
    rw [hm.path i (his i (by simp))]
    refine holds_unlink (Download.below_part i) h fun r s₁ h₁ hc₁ hgone => ?_
    refine Machine.always_mono _ ?_ (ih (fun j hj => his j (by simp [hj])) h₁)
    rintro _ s' - ⟨hc,hrest⟩
    refine ⟨hc₁.trans hc,fun hn j hj => ?_⟩
    rcases List.mem_cons.mp hj with rfl | hj
    · exact hc.gone _ (hgone hn)
    · exact hrest hn j hj

theorem emptyDir_cleared (h : Kept D origin allowed env s) (hmeta : s.files.lookup D.metaFilePath = none)
    (hparts : ∀ i, allowed i → s.files.lookup (D.partPath i) = none) :
    s.emptyDir D.taskDir = true := by
  refine List.all_eq_true.mpr fun p hp => ?_
  have hb : ¬ D.Below p := by
    intro hb
    rcases List.mem_append.mp hp with hp | hp
    · obtain ⟨f,hf⟩ := Option.isSome_iff_exists.mp (AList.lookup_isSome.mpr (AList.mem_keys.mpr hp))
      rcases h.files p f hf hb with rfl | ⟨i,rfl⟩
      · rw [hmeta] at hf
        cases hf
      · rw [hparts i (h.parts i f hf).1] at hf
        cases hf
    · exact h.dirs p hp hb
  rw [Bool.not_eq_true',← Bool.not_eq_true,List.isPrefixOf_iff_prefix]
  exact hb

theorem holds_multipartTaskCleanup (hm : Cut D n m) (h : Kept D origin allowed env s) :
    Holds ok (Kept D origin allowed env) (multipartTaskCleanup m)
      (fun _ s' => (∀ p, ¬ D.Below p → s'.files.lookup p = s.files.lookup p) ∧
        (NoFault ok → (∀ i, allowed i → i.val < n) → D.taskDir ∉ s'.dirs)) s := by
  unfold multipartTaskCleanup
  rw [hm.metaFilePath,hm.taskDir]
  refine holds_unlink Download.below_meta h fun r s₁ h₁ hc₁ hmeta => ?_
  refine holds_bind (holds_unlinkParts hm (fun i hi => hm.mem.mp hi) h₁) ?_
  rintro _ s₂ h₂ ⟨hc₂,hparts⟩
  have hc := hc₁.trans hc₂
  refine holds_perform h₂ ?_ ?_ ?_
  · intro r s' hx
    simp only [execute] at hx
    split at hx
    · split at hx
      · obtain ⟨rfl,rfl⟩ := Prod.mk.inj (Option.some.inj hx)
        refine ⟨kept_same h₂ rfl rfl fun p hp => .inl (List.mem_filter.mp hp).1,hc.outside,
          fun _ _ => by simp⟩
      · rename_i hempty
        obtain ⟨rfl,rfl⟩ := Prod.mk.inj (Option.some.inj hx)
        refine ⟨h₂,hc.outside,fun hn hall => absurd ?_ hempty⟩
        exact emptyDir_cleared h₂ (hc₂.gone _ (hmeta hn)) fun i hi =>
          hparts hn i (hm.mem.mpr (hall i hi))
    · rename_i hin
      obtain ⟨rfl,rfl⟩ := Prod.mk.inj (Option.some.inj hx)
      exact ⟨h₂,hc.outside,fun _ _ => by simpa using hin⟩
  · intro hfault r s' hx
    obtain ⟨rfl,rfl⟩ := Prod.mk.inj (Option.some.inj hx)
    exact ⟨h₂,hc.outside,fun hn => absurd hn hfault⟩
  · intro n r s' hx
    cases hx

end Cleanup

section Finish

variable {D : Download} {ok : Op → State → Choice → Prop} {origin : PartIndex → ℕ}
  {allowed : PartIndex → Prop} {env : Environment} {s : State} {m : MultipartTaskMeta} {n : ℕ}
  {path : Text}

theorem ne_downloadComplete {msg : Text} (h : msg.take 5 ≠ "多点下载完".toList) (name : Text) :
    msg ≠ downloadComplete name := by
  rintro rfl
  exact h rfl

theorem local_outside {arg : Text}
    (h : buildClientLocalFilePath maxPathLen D.dir arg = some path) : ¬ D.Below path := by
  unfold buildClientLocalFilePath at h
  split at h
  · cases h
  · rename_i hslash
    rw [← (bounded_eq_some.mp h).1]
    exact Download.not_below_local hslash

theorem holds_lastPrint (msg : Text) (h : Kept D origin allowed env s) :
    Holds ok (Kept D origin allowed env) (perform (.print msg))
      (fun _ s' => s'.files = s.files ∧ s'.dirs = s.dirs ∧ s'.printed.getLast? = some msg) s :=
  holds_print kept_suits (f := pure) h fun s' h' hs => ⟨h',by rw [hs],by rw [hs],by rw [hs]; simp⟩

theorem part_full {i : PartIndex} {p : MultipartPartInfo} (hi : i.val < n) {f : Content}
    (hs : partTotalSize p = partSize D.content.length n i.val) (hp : p.partFilePath = D.partPath i)
    (hl : s.files.lookup (D.partPath i) = some f) (hpre : f <+: slice D.content n i.val)
    (hc : Counted ok s p) (hf : isPartFinished p = true) : f = slice D.content n i.val := by
  have hfin : partTotalSize p ≤ p.finishedBytes := of_decide_eq_true hf
  have hlen := slice_length D.content hi
  refine hpre.eq_of_length_le ?_
  rcases hc with hc | ⟨hc,_⟩
  · rw [hp,hl] at hc
    simp only [Option.map_some,finishedOf] at hc
    split at hc <;> omega
  · omega

theorem whole_of_finished (horigin : ∀ i : PartIndex, i.val < n → origin i = n)
    (h : Kept D origin allowed env s) (hs : Synced D ok n s m) (hf : allPartsFinished m = true) :
    Whole D n s := by
  intro i f hi hl
  have hpre := (h.parts i f hl).2
  rw [horigin i hi] at hpre
  have hall := List.all_eq_true.mp hf i (hs.divided.mem.mpr hi)
  exact part_full hi (hs.divided.total hi) (hs.divided.path i hi) hl hpre (hs.counted i hi) hall

theorem finished_of_full (hn : NoFault ok) (hs : Synced D ok n s m)
    (hfull : ∀ i : PartIndex, i.val < n →
      s.files.lookup (D.partPath i) = some (slice D.content n i.val)) :
    allPartsFinished m = true := by
  refine List.all_eq_true.mpr fun i hi => decide_eq_true ?_
  have hin := hs.divided.mem.mp hi
  have ht := hs.divided.total hin
  have hlen := slice_length D.content hin
  rcases hs.counted i hin with hc | ⟨_,hc⟩
  · rw [hs.divided.path i hin,hfull i hin] at hc
    simp only [Option.map_some,finishedOf] at hc
    split at hc <;> omega
  · exact absurd hn hc

/-- The local file is the content, the user is told so, and the task directory is gone. -/
structure Finished (D : Download) (path name : Text) (s : State) : Prop where
  file : s.files.lookup path = some D.content
  told : s.printed.getLast? = some (downloadComplete name)
  removed : D.taskDir ∉ s.dirs

theorem holds_finishDownload (hpath : ¬ D.Below path) (hm : Cut D n m)
    (horigin : ∀ i : PartIndex, i.val < n → origin i = n) (h : Kept D origin allowed env s) :
    Holds ok (Kept D origin allowed env) (finishDownload path m)
      (fun _ s' =>
        (NoFault ok → (∀ i, allowed i → i.val < n) → env.sha256 D.content = D.hash →
          (∀ i : PartIndex, i.val < n →
            s.files.lookup (D.partPath i) = some (slice D.content n i.val)) →
          Finished D path m.fileName s') ∧
        ((∃ i : PartIndex, i.val < n ∧ s.files.lookup (D.partPath i) = none) →
          s'.printed.getLast? ≠ some (downloadComplete m.fileName))) s := by
  unfold finishDownload
  refine holds_bind (holds_multipartTaskSyncProgress kept_suits h hm) ?_
  rintro ⟨saved,m'⟩ s₁ h₁ ⟨href,hsync,⟨t,hs₁⟩,_⟩
  have hparts : ∀ i, s₁.files.lookup (D.partPath i) = s.files.lookup (D.partPath i) := by
    intro i
    rcases hs₁ with rfl | rfl
    · rfl
    · exact AList.lookup_insert_ne (Download.partPath_ne_meta i)
  have htask : m' = { m with parts := m'.parts } := href.task
  have hname : m'.fileName = m.fileName := by rw [htask]
  have hhash : m'.fileHash = D.hash := hsync.divided.hash
  have hfailed : ∀ {s₂ : State} (msg : String), msg.toList.take 5 ≠ "多点下载完".toList →
      Kept D origin allowed env s₂ →
      (NoFault ok → env.sha256 D.content = D.hash → ¬ ∀ i : PartIndex, i.val < n →
        s.files.lookup (D.partPath i) = some (slice D.content n i.val)) →
      Holds ok (Kept D origin allowed env) (print msg)
        (fun _ s' =>
          (NoFault ok → (∀ i, allowed i → i.val < n) → env.sha256 D.content = D.hash →
            (∀ i : PartIndex, i.val < n →
              s.files.lookup (D.partPath i) = some (slice D.content n i.val)) →
            Finished D path m.fileName s') ∧
          ((∃ i : PartIndex, i.val < n ∧ s.files.lookup (D.partPath i) = none) →
            s'.printed.getLast? ≠ some (downloadComplete m.fileName))) s₂ := by
    intro s₂ msg hmsg h₂ hno
    refine Machine.always_mono _ ?_ (holds_lastPrint msg.toList h₂)
    rintro _ s' - ⟨_,_,hlast⟩
    refine ⟨fun hn _ hsha hfull => absurd hfull (hno hn hsha),fun _ hc => ?_⟩
    rw [hlast] at hc
    exact ne_downloadComplete hmsg _ (Option.some.inj hc)
  dsimp only
  split
  · rename_i hfin
    have hlocal : Carries (Kept D origin allowed env) path D.content := carries_local hpath _
    have hcut : Cut D n m' := hsync.divided.toCut
    have hheld : ∀ i ∈ m'.indices, s₁.held m' i = s.files.lookup (D.partPath i) := by
      intro i hi
      rw [State.held,hcut.path i (hcut.mem.mp hi),hparts i]
    have hne : ∀ i ∈ m'.indices, (m'.parts i).partFilePath ≠ path := by
      intro i hi
      rw [hcut.path i (hcut.mem.mp hi)]
      exact fun hp => hpath (hp ▸ Download.below_part i)
    have hjoined : Joined (s₁.held m') D.content m'.indices 0 := by
      have hj := joined_whole hcut (whole_of_finished horigin h₁ hsync hfin)
        ((indices_val hcut.count hcut.bound).trans List.range_eq_range') (Nat.zero_le _)
      rwa [partStart_zero] at hj
    refine holds_bind (holds_mergePartFiles hlocal h₁ hne hjoined) ?_
    rintro merged s₂ h₂ ⟨_,_,htrue,hfalse⟩
    cases merged with
    | true =>
      obtain ⟨hfile,hthere⟩ := htrue rfl
      have habsent : ¬ ∃ i : PartIndex, i.val < n ∧ s.files.lookup (D.partPath i) = none := by
        rintro ⟨i,hi,hl⟩
        have hmem := hcut.mem.mpr hi
        exact hthere i hmem ((hheld i hmem).trans hl)
      rw [if_pos rfl]
      refine holds_perform h₂ ?_ ?_ ?_
      · intro r s' hx
        obtain ⟨rfl,rfl⟩ := Prod.mk.inj (Option.some.inj hx)
        rw [hfile]
        simp only [Option.map_some]
        split
        · refine holds_bind (holds_multipartTaskCleanup hsync.divided.toCut h₂) ?_
          rintro removed s₃ h₃ ⟨hout,hdir⟩
          rw [hname]
          refine Machine.always_mono _ ?_ (holds_lastPrint _ h₃)
          rintro _ s₄ - ⟨hfiles,hdirs,hlast⟩
          refine ⟨fun hn hall _ _ => ⟨?_,hlast,?_⟩,fun hc => absurd hc habsent⟩
          · rw [hfiles,hout path hpath]
            exact hfile
          · rw [hdirs]
            exact hdir hn hall
        · rename_i hsha
          refine hfailed _ (by decide) h₂ fun _ hs _ => hsha ?_
          rw [hhash,h₂.env]
          exact hs
      · intro hfault r s' hx
        obtain ⟨rfl,rfl⟩ := Prod.mk.inj (Option.some.inj hx)
        exact hfailed _ (by decide) h₂ fun hn => absurd hn hfault
      · intro n r s' hx
        cases hx
    | false =>
      rw [if_neg (by decide)]
      refine hfailed _ (by decide) h₂ fun hn _ hfull => ?_
      rcases hfalse rfl with hf | ⟨i,hi,hl⟩
      · exact hf hn
      · rw [hheld i hi,hfull i (hcut.mem.mp hi)] at hl
        cases hl
  · rename_i hfin
    refine hfailed _ (by decide) h₁ fun hn _ hfull => hfin ?_
    exact finished_of_full hn hsync fun i hi => (hparts i).trans (hfull i hi)

end Finish

end Client

end WindCloud
