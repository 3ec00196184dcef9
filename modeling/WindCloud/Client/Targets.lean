import WindCloud.Client.Completion
import WindCloud.Lib.Turns

/-!
# The local file of a download

The merge truncates the local file before it knows whether it will succeed. A
run that ends without completing leaves the file alone if it never opens it;
once it is open, the run has to complete.
-/

set_option autoImplicit false

namespace WindCloud
open CString Effect Function

namespace Client

def Op.silent : Op → Prop
  | .print _ => False
  | _ => True

/-- Silent operations that do not change the file at `target`, unless it is open. -/
def Op.spares (target : Text) : Op → Prop
  | .save p _ | .unlink p | .openPart p | .openOutput p => p ≠ target
  | .print _ => False
  | _ => True

abbrev Silently {α : Type} (p : Client α) : Prop := p.Uses Op.silent

abbrev Spares (target : Text) {α : Type} (p : Client α) : Prop := p.Uses (Op.spares target)

/-- Nothing has been printed. -/
structure Hushed (s s' : State) : Prop where
  env : s'.env = s.env
  printed : s'.printed = s.printed

/-- The file at `target` is as it was, and not open for writing. -/
structure Spared (target : Text) (s s' : State) : Prop extends Hushed s s' where
  file : s'.files.lookup target = s.files.lookup target
  output : ∀ h ∈ s'.output, h.path ≠ target

section Steps

variable {target : Text} {s s₁ s₂ : State} {o : Op} {c : Choice} {r : o.Res}

theorem execute_silent (ho : o.silent) (hx : execute o s₁ c = some (r,s₂)) : Hushed s₁ s₂ := by
  cases o <;> try exact ho.elim
  all_goals
    cases c <;> simp only [execute] at hx
    all_goals
      repeat' split at hx
      all_goals
        cases hx
        try exact ⟨rfl,rfl⟩

theorem spares_silent {o : Op} (ho : o.spares target) : o.silent := by
  cases o <;> trivial

theorem execute_spares (ho : o.spares target) (hout : ∀ h ∈ s₁.output, h.path ≠ target)
    (hx : execute o s₁ c = some (r,s₂)) :
    s₂.files.lookup target = s₁.files.lookup target ∧ ∀ h ∈ s₂.output, h.path ≠ target := by
  have hput : ∀ {p : Text} {f : Content}, p ≠ target →
      (s₁.put p f).files.lookup target = s₁.files.lookup target :=
    fun hp => AList.lookup_insert_ne hp.symm
  cases o <;> try exact ho.elim
  case save p text =>
    cases c <;> cases hx
    · exact ⟨hput ho,hout⟩
    · exact ⟨rfl,hout⟩
  case unlink p =>
    cases c <;> cases hx
    · exact ⟨AList.lookup_erase_ne (Ne.symm ho),hout⟩
    · exact ⟨rfl,hout⟩
  case openPart p =>
    cases c <;> cases hx
    · exact ⟨hput ho,fun h hh => Option.some.inj hh ▸ ho⟩
    · exact ⟨rfl,hout⟩
  case openOutput p =>
    cases c <;> cases hx
    · exact ⟨hput ho,fun h hh => Option.some.inj hh ▸ ho⟩
    · exact ⟨rfl,hout⟩
  case closeOutput =>
    cases c <;> cases hx
    exact ⟨rfl,by simp⟩
  case ftruncate size =>
    cases c <;> simp only [execute] at hx
    · cases hs : s₁.output with
      | none =>
        rw [hs] at hx
        cases hx
        exact ⟨rfl,hout⟩
      | some h =>
        simp only [hs] at hx
        split at hx
        · cases hx
          exact ⟨hput (hout h hs),hout⟩
        · cases hx
          exact ⟨rfl,hout⟩
    · cases hx
      exact ⟨rfl,hout⟩
    · cases hx
  case lseek pos =>
    cases c <;> simp only [execute] at hx
    · cases hs : s₁.output with
      | none =>
        rw [hs] at hx
        cases hx
        exact ⟨rfl,hout⟩
      | some h =>
        simp only [hs] at hx
        split at hx
        · cases hx
          exact ⟨rfl,fun g hg => Option.some.inj hg ▸ hout h hs⟩
        · cases hx
          exact ⟨rfl,hout⟩
    · cases hx
      exact ⟨rfl,hout⟩
    · cases hx
  case write buf =>
    cases hs : s₁.output with
    | none =>
      cases c <;> simp only [execute,hs] at hx <;> cases hx <;> exact ⟨rfl,hout⟩
    | some h =>
      have hemit : ∀ bs, (s₁.emit h bs).files.lookup target = s₁.files.lookup target ∧
          ∀ g ∈ (s₁.emit h bs).output, g.path ≠ target :=
        fun bs => ⟨hput (hout h hs),fun g hg => Option.some.inj hg ▸ hout h hs⟩
      cases c <;> simp only [execute,hs] at hx
      · cases hx
        exact hemit _
      · cases hx
        exact ⟨rfl,hout⟩
      · split at hx
        · cases hx
          exact hemit _
        · cases hx
  all_goals
    cases c <;> simp only [execute] at hx
    all_goals
      repeat' split at hx
      all_goals
        cases hx
        try exact ⟨rfl,hout⟩

theorem Hushed.trans (h : Hushed s s₁) (h' : Hushed s₁ s₂) : Hushed s s₂ where
  env := h'.env.trans h.env
  printed := h'.printed.trans h.printed

theorem spared_step (o : Op) (s₁ : State) (c : Choice) (r : o.Res) (s₂ : State)
    (ho : o.spares target) (h : Spared target s s₁) (hx : execute o s₁ c = some (r,s₂)) :
    Spared target s s₂ := by
  obtain ⟨hfile,hout⟩ := execute_spares ho h.output hx
  exact ⟨h.toHushed.trans (execute_silent (spares_silent ho) hx),hfile.trans h.file,hout⟩

theorem holds_spares {α : Type} {ok : Op → State → Choice → Prop} {p : Client α}
    (hp : Spares target p) (h : Spared target s s₁) :
    Holds ok (Spared target s) p (fun _ _ => True) s₁ :=
  Machine.always_uses spared_step hp h

end Steps

section Programs

variable {target : Text} {α β : Type}

theorem spares_bind {p : Client α} {f : α → Client β} (hp : Spares target p)
    (hf : ∀ a, Spares target (f a)) : Spares target (p >>= f) :=
  Program.uses_bind p f hp hf

theorem spares_perform {o : Op} (ho : o.spares target) : Spares target (perform o) :=
  ⟨ho,fun _ => trivial⟩

theorem spares_writeFileFull (buf : Content) (passes total : ℕ) :
    Spares target (writeFileFull buf passes total) := by
  induction passes generalizing total with
  | zero => trivial
  | succ passes ih =>
    unfold writeFileFull
    split
    · refine spares_bind (spares_perform trivial) fun r => ?_
      split
      · trivial
      · exact ih _
    · trivial

theorem spares_receivePart (passes : ℕ) (remaining : ℤ) :
    Spares target (receivePart passes remaining) := by
  induction passes generalizing remaining with
  | zero => trivial
  | succ passes ih =>
    unfold receivePart
    split
    · refine spares_bind (spares_perform trivial) fun r => ?_
      rcases (r : Option Content) with _ | buf
      · trivial
      · refine spares_bind (spares_writeFileFull _ _ _) fun r => ?_
        cases r with
        | false => trivial
        | true => exact ih _
    · trivial

theorem spares_closeFailed : Spares target closeFailed :=
  spares_bind (spares_perform trivial) fun _ => trivial

theorem spares_seekPart (fileSize requestOffset : ℤ) :
    Spares target (seekPart fileSize requestOffset) := by
  refine spares_bind (spares_perform trivial) fun r => ?_
  cases (r : Bool) with
  | false => exact spares_closeFailed
  | true =>
    exact spares_bind (spares_receivePart _ _) fun _ =>
      spares_bind (spares_perform trivial) fun _ => trivial

theorem spares_partTransfer {task : GetsPartTask} (ht : task.partFilePath ≠ target) :
    Spares target (runGetsPartTransfer task) := by
  refine spares_bind (spares_perform trivial) fun r => ?_
  rcases (r : Option FilePacket) with _ | hello
  · trivial
  dsimp only
  split
  · trivial
  refine spares_bind (spares_perform trivial) fun st => spares_bind (spares_perform trivial)
    fun r => ?_
  cases (r : Bool) with
  | false => trivial
  | true =>
    rw [if_pos rfl]
    split
    · trivial
    refine spares_bind (spares_perform ht) fun r => ?_
    cases (r : Bool) with
    | false => trivial
    | true =>
      rw [if_pos rfl]
      split
      · refine spares_bind (spares_perform trivial) fun r => ?_
        cases (r : Bool) with
        | false => exact spares_closeFailed
        | true => exact spares_seekPart _ _
      · exact spares_seekPart _ _

theorem spares_partThread {task : GetsPartTask} (ht : task.partFilePath ≠ target) :
    Spares target (getsPartThreadFunc task) := by
  have hclose : ∀ n, Spares target (closeSocket n) := fun n =>
    spares_bind (spares_perform trivial) fun _ => trivial
  refine spares_bind (spares_perform trivial) fun _ => spares_bind (spares_perform trivial)
    fun r => ?_
  cases (r : Bool) with
  | false => exact hclose _
  | true =>
    refine spares_bind (spares_perform trivial) fun r => ?_
    cases (r : Bool) with
    | false => exact hclose _
    | true => exact spares_bind (spares_partTransfer ht) fun _ => hclose _

theorem spares_runPartThreads {tasks : List GetsPartTask}
    (ht : ∀ task ∈ tasks, task.partFilePath ≠ target) : Spares target (runPartThreads tasks) := by
  induction tasks with
  | nil => trivial
  | cons task tasks ih =>
    have hrest := ih fun t h => ht t (by simp [h])
    refine spares_bind (spares_perform trivial) fun r => ?_
    cases (r : Bool) with
    | false => exact hrest
    | true => exact spares_bind (spares_partThread (ht task (by simp))) fun _ => hrest

theorem spares_unlinkParts {m : MultipartTaskMeta}
    (hm : ∀ i, (m.parts i).partFilePath ≠ target) (is : List PartIndex) :
    Spares target (unlinkParts is m) := by
  induction is with
  | nil => trivial
  | cons i is ih => exact spares_bind (spares_perform (hm i)) fun _ => ih

theorem spares_cleanup {m : MultipartTaskMeta} (hpath : m.metaFilePath ≠ target)
    (hm : ∀ i, (m.parts i).partFilePath ≠ target) : Spares target (multipartTaskCleanup m) := by
  refine spares_bind (spares_perform hpath) fun _ => spares_bind (spares_unlinkParts hm _) fun _ =>
    spares_bind (spares_perform trivial) fun r => ?_
  rcases (r : RmdirResult) <;> trivial

theorem silent_bind {p : Client α} {f : α → Client β} (hp : Silently p)
    (hf : ∀ a, Silently (f a)) : Silently (p >>= f) :=
  Program.uses_bind p f hp hf

theorem silent_perform {o : Op} (ho : o.silent) : Silently (perform o) := ⟨ho,fun _ => trivial⟩

theorem silent_copyPart (passes : ℕ) : Silently (copyPart passes) := by
  induction passes with
  | zero => trivial
  | succ passes ih =>
    refine silent_bind (silent_perform trivial) fun r => ?_
    rcases (r : Option Content) with _ | buf
    · trivial
    dsimp only
    split
    · trivial
    have hwrite : Spares [] (writeFileFull buf buf.length 0) := spares_writeFileFull _ _ _
    refine silent_bind (Program.uses_mono (fun _ => spares_silent) hwrite) fun r => ?_
    cases r with
    | false => trivial
    | true => exact ih

theorem silent_mergeParts (m : MultipartTaskMeta) (is : List PartIndex) :
    Silently (mergeParts m is) := by
  induction is with
  | nil => trivial
  | cons i is ih =>
    refine silent_bind (silent_perform trivial) fun r => ?_
    rcases (r : Option ℕ) with _ | size
    · trivial
    refine silent_bind (silent_copyPart _) fun copied => silent_bind (silent_perform trivial)
      fun _ => ?_
    cases copied with
    | false => trivial
    | true => exact ih

end Programs

section Runs

variable {target : Text} {ok : Op → State → Choice → Prop} {s s₁ s' : State}
  {m m' : MultipartTaskMeta} {tasks : List GetsPartTask}

/-- The task keeps its own files apart from the local file, as the caller of the
manager names them. -/
structure Apart (target : Text) (m : MultipartTaskMeta) (tasks : List GetsPartTask) : Prop where
  metaFile : m.metaFilePath ≠ target
  parts : ∀ i, (m.parts i).partFilePath ≠ target
  tasks : ∀ task ∈ tasks, task.partFilePath ≠ target

/-- The run has told the user that the download is complete. -/
def Reported (m : MultipartTaskMeta) (s s' : State) : Prop :=
  s'.printed = s.printed ++ [downloadComplete m.fileName]

/-- The part files are all there, and put together they have the hash. -/
def Mergeable (m : MultipartTaskMeta) (s : State) : Prop :=
  (∀ i ∈ m.indices, s.held m i ≠ none) ∧
    s.env.sha256 (m.indices.flatMap fun i => (s.held m i).getD []) = m.fileHash

/-- The local file is opened only when the part files can be merged; no
operation fails while it is open or when its hash is computed. -/
def Careful (target : Text) (m : MultipartTaskMeta) (o : Op) (s : State) (c : Choice) : Prop :=
  (o = .openOutput target → c = .ok → Mergeable m s) ∧
    ((∃ h ∈ s.output, h.path = target) → c ≠ .fault) ∧ (o = .fileSha256 target → c ≠ .fault)

/-- What is at `target` after a run that reported completion. -/
def Verified (target : Text) (m : MultipartTaskMeta) (s s' : State) : Prop :=
  Reported m s s' → (s'.files.lookup target).map s'.env.sha256 = some m.fileHash

theorem holds_syncSpared (hm : m.metaFilePath ≠ target) (h : Spared target s s₁) :
    Holds ok (Spared target s) (multipartTaskSyncProgress m) (fun r _ => SameTask m r.2) s₁ := by
  unfold multipartTaskSyncProgress
  refine holds_bind (holds_syncParts h (indices_nodup m) m) ?_
  rintro m' _ hs ⟨rfl,hr⟩
  have hpath : m'.metaFilePath ≠ target := by rwa [hr.task]
  refine holds_bind (R := fun _ _ => True) (holds_spares (spares_perform hpath) hs) ?_
  exact fun _ s₂ hs₂ _ => ⟨hs₂,hr.toSameTask⟩

theorem holds_end {I : State → Prop} {Q : Unit → State → Prop} {msg : Text} (h : I s₁)
    (hI : I { s₁ with printed := s₁.printed ++ [msg] })
    (hq : Q () { s₁ with printed := s₁.printed ++ [msg] }) :
    Holds ok I (perform (.print msg)) Q s₁ := by
  refine ⟨h,fun c r s₂ _ hx => ?_⟩
  cases c <;> cases hx
  exact ⟨hI,hq⟩

theorem unreported {msg : String} (hmsg : msg.toList.take 5 ≠ "多点下载完".toList)
    (h : Hushed s s₁) : ¬Reported m s { s₁ with printed := s₁.printed ++ [msg.toList] } := by
  intro hr
  unfold Reported at hr
  rw [show ({ s₁ with printed := s₁.printed ++ [msg.toList] } : State).printed =
    s₁.printed ++ [msg.toList] from rfl,h.printed] at hr
  exact ne_downloadComplete hmsg _ (List.singleton_inj.mp (List.append_cancel_left hr))

theorem holds_settled {α : Type} {I : State → Prop} {p : Client α} {Q : α → State → Prop}
    (h : Holds ok I p Q s) : Holds ok (fun _ => True) p (fun a s' => I s' ∧ Q a s') s :=
  Machine.always_weaken _ (fun _ _ => trivial)
    (Machine.always_mono _ (fun _ _ hi hq => And.intro hi hq) h)

theorem hushed_step (o : Op) (s₁ : State) (c : Choice) (r : o.Res) (s₂ : State) (ho : o.silent)
    (h : Hushed s s₁) (hx : execute o s₁ c = some (r,s₂)) : Hushed s s₂ :=
  h.trans (execute_silent ho hx)

theorem holds_mergeClosed (path : Text) (m : MultipartTaskMeta) (h : Hushed s s₁) :
    Holds ok (Hushed s) (mergePartFiles path m) (fun r s' => r = true → s'.output = none) s₁ := by
  unfold mergePartFiles
  refine holds_op h fun c r s₂ _ hx => ?_
  have h₂ : Hushed s s₂ := hushed_step (.openOutput path) s₁ c r s₂ trivial h hx
  cases (r : Bool) with
  | false => exact ⟨h₂,by simp⟩
  | true =>
    rw [if_pos rfl]
    refine holds_bind (R := fun _ _ => True)
      (Machine.always_uses hushed_step (silent_mergeParts _ _) h₂) ?_
    intro merged s₃ h₃ _
    refine holds_op h₃ fun c r s₄ _ hx => ?_
    cases c <;> cases hx
    exact ⟨⟨h₃.env,h₃.printed⟩,fun _ => rfl⟩

theorem joined_flatMap {held : PartIndex → Option Content} {is : List PartIndex}
    (hall : ∀ i ∈ is, held i ≠ none) (front : Content) :
    Joined held (front ++ is.flatMap fun i => (held i).getD []) is front.length := by
  induction is generalizing front with
  | nil => simp [Joined]
  | cons i is ih =>
    obtain ⟨f,hf⟩ := Option.ne_none_iff_exists'.mp (hall i (by simp))
    intro g hg
    obtain rfl := Option.some.inj (hf.symm.trans hg)
    have hrest := ih (fun j hj => hall j (by simp [hj])) (front ++ f)
    rw [List.flatMap_cons,hf,Option.getD_some,List.drop_left]
    refine ⟨List.prefix_append _ _,?_⟩
    rwa [List.append_assoc,List.length_append] at hrest

/-- The end of `gets_manager_thread_func`, behind the merge. -/
def checkFile (target : Text) (m : MultipartTaskMeta) : Client Unit := do
  match ← perform (.fileSha256 target) with
  | none => print "校验最终文件哈希失败。"
  | some finalHash =>
    if finalHash = m.fileHash then do
      let _ ← multipartTaskCleanup m
      perform (.print (downloadComplete m.fileName))
    else print "最终文件哈希不匹配。"

theorem finishDownload_eq (target : Text) (m : MultipartTaskMeta) : finishDownload target m = (do
    let (_,m) ← multipartTaskSyncProgress m
    if allPartsFinished m then
      if ← mergePartFiles target m then checkFile target m else print "分片合并失败。"
    else print "多点下载未完成，可再次执行 gets 继续下载。") := rfl

theorem Apart.same (h : Apart target m tasks) (hm : SameTask m m') : Apart target m' tasks where
  metaFile := by
    rw [hm.task]
    exact h.metaFile
  parts := by
    intro i
    obtain ⟨n,hp⟩ := hm.part i
    rw [hp]
    exact h.parts i
  tasks := h.tasks

theorem holds_checkFile (hm : Apart target m tasks) (h : Hushed s s₁) (hout : s₁.output = none) :
    Holds ok (fun _ => True) (checkFile target m)
      (fun _ s' => (Reported m s s' ∧
          (s'.files.lookup target).map s'.env.sha256 = some m.fileHash) ∨
        ¬Reported m s s' ∧ ((∀ o s c, ok o s c → o = .fileSha256 target → c ≠ .fault) →
          (s₁.files.lookup target).map s₁.env.sha256 ≠ some m.fileHash)) s₁ := by
  unfold checkFile
  refine holds_op trivial fun c r s₂ hok hx => ?_
  cases c with
  | ok =>
    cases hx
    cases hhash : (s₁.files.lookup target).map s₁.env.sha256 with
    | none => exact holds_end trivial trivial (.inr ⟨unreported (by decide) h,by simp⟩)
    | some finalHash =>
      dsimp only
      split
      · rename_i heq
        have hspared : Spared target s₁ s₁ := ⟨⟨rfl,rfl⟩,rfl,by simp [hout]⟩
        refine holds_bind (holds_settled (holds_spares (spares_cleanup hm.metaFile hm.parts)
          hspared)) ?_
        rintro _ s₃ - ⟨h₃,-⟩
        refine holds_end trivial trivial (.inl ⟨?_,?_⟩)
        · unfold Reported
          rw [← h.printed,← h₃.printed]
        · dsimp only
          rw [h₃.file,h₃.env,hhash,heq]
      · rename_i hne
        refine holds_end trivial trivial (.inr ⟨unreported (by decide) h,fun _ hc => hne ?_⟩)
        exact Option.some.inj hc
  | fault =>
    cases hx
    exact holds_end trivial trivial
      (.inr ⟨unreported (by decide) h,fun hno => absurd rfl (hno _ _ _ hok rfl)⟩)
  | count n => cases hx

theorem holds_finishVerified (hm : Apart target m tasks) (h : Spared target s s₁) :
    Holds ok (fun _ => True) (finishDownload target m) (fun _ s' => Verified target m s s') s₁ := by
  rw [finishDownload_eq]
  refine holds_bind (holds_settled (holds_syncSpared hm.metaFile h)) ?_
  rintro ⟨saved,m'⟩ s₂ - ⟨h₂,hsame⟩
  have hfailed : ∀ {s₃ : State} (msg : String), msg.toList.take 5 ≠ "多点下载完".toList →
      Hushed s s₃ → Holds ok (fun _ => True) (print msg) (fun _ s' => Verified target m s s') s₃ :=
    fun msg hmsg h₃ => holds_end trivial trivial fun hr => absurd hr (unreported hmsg h₃)
  have hname : m'.fileName = m.fileName := hsame.fileName
  have hhash : m'.fileHash = m.fileHash := hsame.fileHash
  dsimp only
  split
  · refine holds_bind (holds_settled (holds_mergeClosed target m' h₂.toHushed)) ?_
    rintro merged s₃ - ⟨h₃,hclosed⟩
    cases merged with
    | false => exact hfailed _ (by decide) h₃
    | true =>
      refine Machine.always_mono _ ?_ (holds_checkFile (hm.same hsame) h₃ (hclosed rfl))
      rintro _ s' - (⟨_,hfile⟩ | ⟨hno,_⟩) hr
      · rw [hfile,hhash]
      · unfold Reported at hno hr
        rw [hname] at hno
        exact absurd hr hno
  · exact hfailed _ (by decide) h₂.toHushed

theorem held_same (hm : SameTask m m') (s : State) : s.held m' = s.held m := by
  funext i
  obtain ⟨n,hp⟩ := hm.part i
  rw [State.held,hp]
  rfl

theorem indices_same (hm : SameTask m m') : m'.indices = m.indices := by
  unfold MultipartTaskMeta.indices
  rw [hm.partCount]

/-- The target is open, and nothing has been printed. -/
def Writing (target : Text) (s s' : State) : Prop :=
  (∃ h ∈ s'.output, h.path = target) ∧ Hushed s s'

/-- A careful merge that has begun makes up the content. -/
theorem holds_mergeCareful (hok : ∀ o s c, ok o s c → Careful target m o s c)
    (hm : Apart target m' tasks) (hsame : SameTask m m') (h : Hushed s s₁) :
    Holds ok (fun _ => True) (mergePartFiles target m')
      (fun merged s' => Hushed s s' ∧ (merged = false → s' = s₁) ∧
        (merged = true → s'.output = none ∧
          (s'.files.lookup target).map s'.env.sha256 = some m.fileHash)) s₁ := by
  unfold mergePartFiles
  refine holds_op trivial fun c r s₂ hc hx => ?_
  cases c with
  | ok =>
    cases hx
    obtain ⟨hall,hsha⟩ := (hok _ _ _ hc).1 rfl rfl
    rw [← held_same hsame,← indices_same hsame] at hall hsha
    generalize hw : (m'.indices.flatMap fun i => (s₁.held m' i).getD []) = w at hsha
    have hjoined : Joined (s₁.held m') w m'.indices 0 := by
      have hj := joined_flatMap hall []
      rwa [List.nil_append,hw] at hj
    have hopen : s₁.openAt target [] = State.filled { s₁ with input := s₁.input } target w 0 := by
      simp [State.openAt,State.put,State.filled]
    have hwriting : ∀ x j, Writing target s (State.filled { s₁ with input := x } target w j) :=
      fun x j => ⟨⟨⟨target,j⟩,rfl,rfl⟩,h.env,h.printed⟩
    rw [if_pos rfl,hopen]
    have hcopied : Holds NoFailure (Writing target s) (mergeParts m' m'.indices) _
        (State.filled { s₁ with input := s₁.input } target w 0) :=
      holds_mergeParts hwriting (fun i _ => hm.parts i) (Nat.zero_le _) hjoined s₁.input
    have hmerge := Machine.always_permitted (fun o s c hw hc => (hok o s c hc).2.1 hw.1) hcopied
    refine holds_bind (holds_settled hmerge) ?_
    rintro merged _ - ⟨hwr,x,j,_,rfl,htrue,hfalse⟩
    have hmerged : merged = true := by
      by_contra hno
      rcases hfalse (by simpa using hno) with hf | ⟨i,hi,hl⟩
      · exact hf noFault_noFailure
      · exact hall i hi hl
    obtain ⟨rfl,_⟩ := htrue hmerged
    refine holds_op trivial fun c r s₃ _ hx => ?_
    cases c <;> cases hx
    refine ⟨trivial,⟨h.env,h.printed⟩,fun hf => absurd (hmerged.symm.trans hf) (by decide),
      fun _ => ⟨rfl,?_⟩⟩
    simp [State.filled,hsha]
  | fault =>
    cases hx
    exact ⟨trivial,h,fun _ => rfl,by simp⟩
  | count n => cases hx

theorem holds_finishCareful (hok : ∀ o s c, ok o s c → Careful target m o s c)
    (hm : Apart target m tasks) (h : Spared target s s₁) :
    Holds ok (fun _ => True) (finishDownload target m)
      (fun _ s' => Reported m s s' ∨ s'.files.lookup target = s.files.lookup target) s₁ := by
  rw [finishDownload_eq]
  refine holds_bind (holds_settled (holds_syncSpared hm.metaFile h)) ?_
  rintro ⟨saved,m'⟩ s₂ - ⟨h₂,hsame⟩
  have hname : m'.fileName = m.fileName := hsame.fileName
  have hhash : m'.fileHash = m.fileHash := hsame.fileHash
  dsimp only
  split
  · refine holds_bind (holds_mergeCareful hok (hm.same hsame) hsame h₂.toHushed) ?_
    rintro merged s₃ - ⟨h₃,hkept,hmade⟩
    cases merged with
    | false =>
      obtain rfl := hkept rfl
      exact holds_end trivial trivial (.inr h₂.file)
    | true =>
      obtain ⟨hclosed,hsha⟩ := hmade rfl
      refine Machine.always_mono _ ?_ (holds_checkFile (hm.same hsame) h₃ hclosed)
      rintro _ s' - (⟨hr,_⟩ | ⟨_,hno⟩)
      · left
        unfold Reported at hr ⊢
        rwa [hname] at hr
      · rw [hhash] at hno
        exact absurd hsha (hno fun o s c hc ho => (hok o s c hc).2.2 ho)
  · exact holds_end trivial trivial (.inr h₂.file)

theorem apart_of_cut {D : Download} {n : ℕ} {arg : Text} (hm : Cut D n m)
    (hlocal : buildClientLocalFilePath maxPathLen D.dir arg = some target)
    (hparts : ∀ i, n ≤ i.val → (m.parts i).partFilePath = [])
    (htasks : ∀ task ∈ tasks, ∃ i ∈ m.indices, task.partFilePath = (m.parts i).partFilePath) :
    Apart target m tasks := by
  have hout := local_outside hlocal
  have hne : target ≠ [] := by
    rintro rfl
    unfold buildClientLocalFilePath at hlocal
    split at hlocal
    · cases hlocal
    · have := (bounded_eq_some.mp hlocal).1
      simp at this
  have hpart : ∀ i, (m.parts i).partFilePath ≠ target := by
    intro i
    by_cases hi : i.val < n
    · rw [hm.path i hi]
      exact fun hp => hout (hp ▸ Download.below_part i)
    · rw [hparts i (by omega)]
      exact hne.symm
  refine ⟨?_,hpart,fun task ht => ?_⟩
  · rw [hm.metaFilePath]
    exact fun hp => hout (hp ▸ Download.below_meta)
  · obtain ⟨i,_,hi⟩ := htasks task ht
    rw [hi]
    exact hpart i

end Runs

end Client

open Client

/-- A run reports completion only of a file with the hash of the plan. A run
that opens the local file only when the part files make up that hash, and in
which nothing fails from then on, otherwise leaves the local file as it was. -/
theorem careful_run_spares_target (target : Text) (m : MultipartTaskMeta)
    (tasks : List GetsPartTask) (hm : Apart target m tasks) (s s' : State)
    (hout : ∀ h ∈ s.output, h.path ≠ target) (cs : List Choice) :
    (client.Exec AnyOutcome () (getsManagerThreadFunc target m tasks) s cs () s' →
        Reported m s s' → (s'.files.lookup target).map s'.env.sha256 = some m.fileHash) ∧
      (client.Exec (Careful target m) () (getsManagerThreadFunc target m tasks) s cs () s' →
        ¬Reported m s s' → s'.files.lookup target = s.files.lookup target) := by
  have hs : Spared target s s := ⟨⟨rfl,rfl⟩,rfl,hout⟩
  have hthreads : ∀ ok, Holds ok (fun _ => True) (runPartThreads tasks)
      (fun _ s' => Spared target s s' ∧ True) s := fun ok =>
    holds_settled (holds_spares (spares_runPartThreads hm.tasks) hs)
  have hverified : Holds AnyOutcome (fun _ => True) (getsManagerThreadFunc target m tasks)
      (fun _ s' => Verified target m s s') s :=
    holds_bind (hthreads _) fun _ _ _ h => holds_finishVerified hm h.1
  have hcareful : Holds (Careful target m) (fun _ => True) (getsManagerThreadFunc target m tasks)
      (fun _ s' => Reported m s s' ∨ s'.files.lookup target = s.files.lookup target) s :=
    holds_bind (hthreads _) fun _ _ _ h => holds_finishCareful (fun _ _ _ hc => hc) hm h.1
  constructor
  · intro hx
    exact (Machine.exec_always hx hverified).2
  · intro hx hno
    exact ((Machine.exec_always hx hcareful).2).resolve_left hno

namespace FailedMerge

def target : Text := "files/a".toList

def task : MultipartTaskMeta :=
  ⟨"a".toList,"h".toList,3,1,"files/.multipart/h".toList,"files/.multipart/h/meta.ini".toList,
    fun _ => ⟨0,0,2,0,[],[],"files/.multipart/h/part_0".toList⟩⟩

/-- A local file of an earlier download, and a part file of three bytes; `sum` is the hash. -/
def begin (sum : Text) : State :=
  { env := ⟨fun _ => ⟨1,0,[],[],[],[]⟩,fun _ => ⟨1,[],[]⟩,fun _ _ _ =>
      ⟨initFilePacket .gets [] 0 0 none,fun _ => []⟩,fun _ => sum⟩
    files := ((∅ : AList fun _ : Text => Content).insert target "old".toList).insert
      "files/.multipart/h/part_0".toList "new".toList
    dirs := ["files/.multipart/h".toList], asked := .command .gets [], address := ([],[])
    peer := ⟨initFilePacket .gets [] 0 0 none,fun _ => []⟩, stream := [], output := none
    input := none, printed := [] }

def outcomes (n : ℕ) : List Choice := List.replicate n .ok

def unopened (o : Op) (s : State) (c : Choice) : Bool :=
  s.output.isNone && (o != .openOutput target || c != .ok) &&
    (o != .fileSha256 target || c != .fault)

theorem unopened_careful (o : Op) (s : State) (c : Choice) (h : unopened o s c = true) :
    Careful target task o s c := by
  simp only [unopened,Bool.and_eq_true,Bool.or_eq_true,bne_iff_ne,ne_eq] at h
  obtain ⟨⟨hnone,hopen⟩,hhash⟩ := h
  refine ⟨fun ho hc => absurd hc (hopen.resolve_left (not_not_intro ho)),?_,fun ho =>
    hhash.resolve_left (not_not_intro ho)⟩
  rintro ⟨g,hg,_⟩
  rw [hg] at hnone
  cases hnone

theorem apart : Apart target task [] := ⟨by decide,by decide,by simp⟩

/-- Only the local file is there, and the source sends the part. -/
def missing : State :=
  { begin "h".toList with
    env := { (begin "h".toList).env with source := fun _ _ _ =>
      ⟨initFilePacket .gets [] 3 0 none,fun q => "new".toList.drop q.offset.toNat⟩ }
    files := (∅ : AList fun _ : Text => Content).insert target "old".toList }

def transfer : GetsPartTask :=
  ⟨0,[],[],"t".toList,"a".toList,"files/.multipart/h/part_0".toList⟩

theorem apart_transfer : Apart target task [transfer] := ⟨by decide,by decide,by decide⟩

end FailedMerge

/-- Where the local file cannot be opened, the earlier one is kept. Where the part is
transferred and merged, the new one has the hash. -/
theorem unopened_target_kept :
    (∃ s', client.Exec (Careful FailedMerge.target FailedMerge.task) ()
        (getsManagerThreadFunc FailedMerge.target FailedMerge.task [])
        (FailedMerge.begin "h".toList) [.ok,.ok,.fault,.ok] () s' ∧
      s'.files.lookup FailedMerge.target = some "old".toList) ∧
    ∃ s', client.Exec AnyOutcome ()
        (getsManagerThreadFunc FailedMerge.target FailedMerge.task [FailedMerge.transfer])
        FailedMerge.missing (FailedMerge.outcomes 28) () s' ∧
      Reported FailedMerge.task FailedMerge.missing s' ∧
      (s'.files.lookup FailedMerge.target).map s'.env.sha256 = some FailedMerge.task.fileHash := by
  constructor
  · have hrun : (((client.restrict FailedMerge.unopened).run ()
        (getsManagerThreadFunc FailedMerge.target FailedMerge.task [])
        (FailedMerge.begin "h".toList) [.ok,.ok,.fault,.ok]).map fun r => r.2.printed) =
        some ["分片合并失败。".toList] := by decide +kernel
    obtain ⟨⟨_,s'⟩,hr,hprinted⟩ := Option.map_eq_some_iff.mp hrun
    have hx := Machine.exec_mono FailedMerge.unopened_careful
      (Machine.restrict_exec (Machine.run_exec hr))
    have hno : ¬Reported FailedMerge.task (FailedMerge.begin "h".toList) s' := by
      intro hc
      rw [Reported,hprinted] at hc
      exact absurd hc (by decide)
    refine ⟨s',hx,?_⟩
    rw [(careful_run_spares_target FailedMerge.target FailedMerge.task [] FailedMerge.apart
      (FailedMerge.begin "h".toList) s' (by simp [FailedMerge.begin]) _).2 hx hno]
    decide +kernel
  · have hrun : ((client.run ()
        (getsManagerThreadFunc FailedMerge.target FailedMerge.task [FailedMerge.transfer])
        FailedMerge.missing (FailedMerge.outcomes 28)).map fun r => r.2.printed) =
        some [downloadComplete FailedMerge.task.fileName] := by decide +kernel
    obtain ⟨⟨_,s'⟩,hr,hprinted⟩ := Option.map_eq_some_iff.mp hrun
    have hx : client.Exec AnyOutcome () _ _ _ _ s' := Machine.run_exec hr
    have hreported : Reported FailedMerge.task FailedMerge.missing s' := hprinted
    exact ⟨s',hx,hreported,(careful_run_spares_target FailedMerge.target FailedMerge.task
      [FailedMerge.transfer] FailedMerge.apart_transfer FailedMerge.missing s'
      (by simp [FailedMerge.missing,FailedMerge.begin]) _).1 hx hreported⟩

/-- The hash of the merged parts is wrong, and the earlier local file is gone. -/
theorem failed_merge_spoils_target : ¬ ∀ (target : Text) (m : MultipartTaskMeta)
    (tasks : List GetsPartTask) (s s' : State) (cs : List Choice), Apart target m tasks →
    (∀ h ∈ s.output, h.path ≠ target) →
    client.Exec AnyOutcome () (getsManagerThreadFunc target m tasks) s cs () s' →
    (Reported m s s' → (s'.files.lookup target).map s'.env.sha256 = some m.fileHash) ∧
      (¬Reported m s s' → s'.files.lookup target = s.files.lookup target) := by
  intro h
  have hrun : ((client.run () (getsManagerThreadFunc FailedMerge.target FailedMerge.task [])
      (FailedMerge.begin "x".toList) (FailedMerge.outcomes 11)).map fun r =>
        (r.2.printed,r.2.files.lookup FailedMerge.target)) =
      some (["最终文件哈希不匹配。".toList],some "new".toList) := by decide +kernel
  obtain ⟨⟨_,s'⟩,hr,he⟩ := Option.map_eq_some_iff.mp hrun
  obtain ⟨hprinted,hfile⟩ := Prod.mk.inj he
  have hno : ¬Reported FailedMerge.task (FailedMerge.begin "x".toList) s' := by
    intro hc
    rw [Reported,hprinted] at hc
    exact absurd hc (by decide)
  have hsame := (h _ _ _ _ _ _ FailedMerge.apart (by simp [FailedMerge.begin])
    (Machine.run_exec hr)).2 hno
  rw [hfile] at hsame
  exact absurd hsame (by decide +kernel)

end WindCloud
