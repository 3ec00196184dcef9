import WindCloud.Client.Task

/-!
# Preparing a task

`multipart_task_prepare` and `multipart_task_sync_progress` keep the task
directory as it is but for `meta.ini`, and return a division of the content
whose progress is what the part files hold. Outcomes are restricted by a
parameter, so that the same facts serve runs with and without failures.
-/

set_option autoImplicit false

namespace WindCloud
open CString Effect Function

namespace Client

def NoFault (ok : Op → State → Choice → Prop) : Prop := ∀ o s c, ok o s c → c ≠ .fault

/-- The plan of a server for the content, within the arrays of its packet. -/
structure PlanFor (D : Download) (plan : MultiGetsPlan) : Prop where
  fileSize : plan.fileSize = D.content.length
  fileHash : plan.fileHash = D.hash
  pos : 0 < plan.sources.length
  bound : plan.sources.length ≤ maxSourceServerCount
  name : plan.fileName.length < fileNameLen
  ip : ∀ source ∈ plan.sources, '\n' ∉ source.ip ∧ source.ip.length < 64
  port : ∀ source ∈ plan.sources, '\n' ∉ source.port ∧ source.port.length < 16

/-- The task in memory is the one of the plan, apart from its progress. -/
structure Planned (D : Download) (plan : MultiGetsPlan) (m : MultipartTaskMeta) : Prop where
  cut : Cut D plan.sources.length m
  fileName : m.fileName = plan.fileName
  source : ∀ (i : PartIndex) (h : i.val < plan.sources.length),
    (m.parts i).sourceIp = plan.sources[i.val].ip ∧
      (m.parts i).sourcePort = plan.sources[i.val].port

/-- The progress of a part is the size of its file, as far as that can be read. -/
def Counted (ok : Op → State → Choice → Prop) (s : State) (p : MultipartPartInfo) : Prop :=
  p.finishedBytes = finishedOf p ((s.files.lookup p.partFilePath).map fun f => (f.length : ℤ)) ∨
    p.finishedBytes = 0 ∧ ¬ NoFault ok

section

variable {ok : Op → State → Choice → Prop} {I : State → Prop} {s : State} {o : Op} {α : Type}
  {Q : α → State → Prop}

abbrev Holds (ok : Op → State → Choice → Prop) (I : State → Prop) (p : Client α)
    (Q : α → State → Prop) (s : State) : Prop := client.always ok () I p Q s

theorem holds_op {o : Op} {f : o.Res → Client α} (hI : I s)
    (h : ∀ c r s', ok o s c → execute o s c = some (r,s') → Holds ok I (f r) Q s') :
    Holds ok I (perform o >>= f) Q s := ⟨hI,h⟩

theorem holds_bind {β : Type} {p : Client α} {f : α → Client β} {Q : β → State → Prop}
    {R : α → State → Prop} (hp : Holds ok I p R s)
    (hf : ∀ a s', I s' → R a s' → Holds ok I (f a) Q s') : Holds ok I (p >>= f) Q s :=
  Machine.always_bind s (Machine.always_mono s hf hp)

theorem fault_not (hok : ok o s .fault) : ¬ NoFault ok := fun h => h _ _ _ hok rfl

theorem holds_stat {path : Text} {f : Option ℤ → Client α} (hI : I s)
    (h : ∀ st, st = (s.files.lookup path).map (fun g => (g.length : ℤ)) ∨
      st = none ∧ ¬ NoFault ok → Holds ok I (f st) Q s) :
    Holds ok I (perform (.stat path) >>= f) Q s := by
  refine holds_op hI fun c r s' hok hx => ?_
  cases c with
  | ok =>
    obtain ⟨rfl,rfl⟩ := Prod.mk.inj (Option.some.inj hx)
    exact h _ (.inl rfl)
  | fault =>
    obtain ⟨rfl,rfl⟩ := Prod.mk.inj (Option.some.inj hx)
    exact h _ (.inr ⟨rfl,fault_not hok⟩)
  | count n => cases hx

theorem holds_save {path text : Text} {f : Bool → Client α} (hI : I s)
    (hsaved : Holds ok I (f true) Q (s.put path text))
    (hfailed : ¬ NoFault ok → Holds ok I (f false) Q s) :
    Holds ok I (perform (.save path text) >>= f) Q s := by
  refine holds_op hI fun c r s' hok hx => ?_
  cases c with
  | ok =>
    obtain ⟨rfl,rfl⟩ := Prod.mk.inj (Option.some.inj hx)
    exact hsaved
  | fault =>
    obtain ⟨rfl,rfl⟩ := Prod.mk.inj (Option.some.inj hx)
    exact hfailed (fault_not hok)
  | count n => cases hx

end

section Sync

variable {D : Download} {ok : Op → State → Choice → Prop} {I : State → Prop} {s : State}

/-- The same task with another progress. -/
structure SameTask (m m' : MultipartTaskMeta) : Prop where
  task : m' = { m with parts := m'.parts }
  part : ∀ i, ∃ n, m'.parts i = { m.parts i with finishedBytes := n }

/-- What a refresh changes: the progress of the parts it visits. -/
structure Refreshed (ok : Op → State → Choice → Prop) (s : State) (is : List PartIndex)
    (m m' : MultipartTaskMeta) : Prop extends SameTask m m' where
  counted : ∀ i ∈ is, Counted ok s (m'.parts i)
  other : ∀ i ∉ is, m'.parts i = m.parts i

theorem holds_syncParts (hI : I s) {is : List PartIndex} (hn : is.Nodup) (m : MultipartTaskMeta) :
    Holds ok I (syncParts is m) (fun m' s' => s' = s ∧ Refreshed ok s is m m') s := by
  induction is generalizing m with
  | nil => exact ⟨hI,rfl,⟨rfl,fun i => ⟨_,rfl⟩⟩,by simp,fun _ _ => rfl⟩
  | cons i is ih =>
    obtain ⟨hi,hn⟩ := List.nodup_cons.mp hn
    refine holds_stat hI fun st hst => ?_
    refine Machine.always_mono s ?_ (ih hn _)
    rintro m' _ _ ⟨rfl,hr⟩
    refine ⟨rfl,⟨hr.task,fun j => ?_⟩,fun j hj => ?_,fun j hj => ?_⟩
    · obtain ⟨n,hp⟩ := hr.part j
      by_cases hji : j = i
      · subst hji
        exact ⟨n,by rw [hp,setPart_self]⟩
      · exact ⟨n,by rw [hp,setPart_other _ _ hji]⟩
    · by_cases hji : j = i
      · subst hji
        rw [hr.other j hi,setPart_self]
        rcases hst with rfl | ⟨rfl,hf⟩
        · exact .inl rfl
        · exact .inr ⟨rfl,hf⟩
      · exact hr.counted j ((List.mem_cons.mp hj).resolve_left hji)
    · have hji : j ≠ i := fun h => hj (by simp [h])
      rw [hr.other j fun h => hj (by simp [h]),setPart_other _ _ hji]

theorem indices_nodup (m : MultipartTaskMeta) : m.indices.Nodup :=
  (List.nodup_finRange _).filter _

theorem SameTask.range {m m' : MultipartTaskMeta} (h : SameTask m m') (i : PartIndex) :
    (m'.parts i).range = (m.parts i).range := by
  obtain ⟨n,hp⟩ := h.part i
  rw [hp]
  rfl

theorem SameTask.fileName {m m' : MultipartTaskMeta} (h : SameTask m m') :
    m'.fileName = m.fileName := by rw [h.task]

theorem SameTask.fileHash {m m' : MultipartTaskMeta} (h : SameTask m m') :
    m'.fileHash = m.fileHash := by rw [h.task]

theorem SameTask.partCount {m m' : MultipartTaskMeta} (h : SameTask m m') :
    m'.partCount = m.partCount := by rw [h.task]

theorem SameTask.cut {n : ℕ} {m m' : MultipartTaskMeta} (h : SameTask m m') (hm : Cut D n m) :
    Cut D n m' where
  pos := hm.pos
  bound := hm.bound
  count := by rw [h.task]; exact hm.count
  hash := by rw [h.task]; exact hm.hash
  size := by rw [h.task]; exact hm.size
  taskDir := by rw [h.task]; exact hm.taskDir
  metaFilePath := by rw [h.task]; exact hm.metaFilePath
  range := fun i hi => (h.range i).trans (hm.range i hi)
  path := by
    intro i hi
    obtain ⟨k,hp⟩ := h.part i
    rw [hp]
    exact hm.path i hi
  source := by
    intro i hi
    obtain ⟨k,hp⟩ := h.part i
    rw [hp]
    exact hm.source i hi

theorem SameTask.planned {plan : MultiGetsPlan} {m m' : MultipartTaskMeta} (h : SameTask m m')
    (hm : Planned D plan m) : Planned D plan m' where
  cut := h.cut hm.cut
  fileName := by rw [h.task]; exact hm.fileName
  source := by
    intro i hi
    obtain ⟨k,hp⟩ := h.part i
    rw [hp]
    exact hm.source i hi

theorem finishedOf_bounds {p : MultipartPartInfo} {size : ℕ} (hs : partTotalSize p = size)
    {st : Option ℤ} (hst : ∀ n ∈ st, 0 ≤ n) : 0 ≤ finishedOf p st ∧ finishedOf p st ≤ size := by
  cases st with
  | none => exact ⟨Int.le_refl _,Int.natCast_nonneg _⟩
  | some n =>
    have := hst n rfl
    rw [finishedOf,hs]
    split <;> omega

theorem counted_bounds {p : MultipartPartInfo} {size : ℕ} (hs : partTotalSize p = size)
    (h : Counted ok s p) : 0 ≤ p.finishedBytes ∧ p.finishedBytes ≤ size := by
  rcases h with h | ⟨h,_⟩
  · rw [h]
    refine finishedOf_bounds hs fun n hn => ?_
    obtain ⟨f,_,rfl⟩ := Option.map_eq_some_iff.mp hn
    exact Int.natCast_nonneg _
  · rw [h]
    exact ⟨Int.le_refl _,Int.natCast_nonneg _⟩

theorem Refreshed.divided {n : ℕ} {m m' : MultipartTaskMeta} (hm : Cut D n m)
    (h : Refreshed ok s m.indices m m') : Divided D n m' :=
  { h.cut hm with
    finished := by
      intro i hi
      have ht : partTotalSize (m'.parts i) = partSize D.content.length n i.val := by
        obtain ⟨k,hp⟩ := h.part i
        rw [hp]
        exact hm.total hi
      exact counted_bounds ht (h.counted i (hm.mem.mpr hi)) }

end Sync

section Directory

variable {D : Download} {ok : Op → State → Choice → Prop} {I : State → Prop} {s s' s₁ : State}

/-- The property lets a task be prepared: directories on the way are made, the
task is saved, the user is told. -/
structure Suits (D : Download) (I : State → Prop) : Prop where
  enter : ∀ {s : State} {d : Text}, I s → ¬ D.Below d → I { s with dirs := s.dirs.insert d }
  save : ∀ {s : State} {n : ℕ} {m : MultipartTaskMeta}, I s → Divided D n m →
    I (s.put D.metaFilePath (metaText m))
  print : ∀ {s : State} (msg : Text), I s → I { s with printed := s.printed ++ [msg] }

/-- Nothing but new directories. -/
structure Entered (s s' : State) : Prop where
  same : s' = { s with dirs := s'.dirs }
  dirs : ∀ d ∈ s.dirs, d ∈ s'.dirs

theorem Entered.trans (h : Entered s s₁) (h' : Entered s₁ s') : Entered s s' where
  same := by rw [h'.same,h.same]
  dirs := fun d hd => h'.dirs d (h.dirs d hd)

theorem kept_suits {origin : PartIndex → ℕ} {allowed : PartIndex → Prop} {env : Environment} :
    Suits D (Kept D origin allowed env) where
  enter := by
    intro s d h hd
    refine kept_same h rfl rfl fun path hp => ?_
    rcases List.mem_insert_iff.mp hp with rfl | hp
    · exact .inr hd
    · exact .inl hp
  save := fun h hm => kept_put_meta h hm rfl rfl rfl
  print := fun _ h => kept_same h rfl rfl fun _ hd => .inl hd

theorem holds_makeDirs (hI : Suits D I) {ds : List Text} (hds : ∀ d ∈ ds, ¬ D.Below d) (h : I s) :
    Holds ok I (makeDirs ds)
      (fun made s' => Entered s s' ∧ (made = true → ∀ d ∈ ds, d ∈ s'.dirs) ∧
        (made = false → ¬ NoFault ok)) s := by
  induction ds generalizing s with
  | nil => exact ⟨h,⟨rfl,fun _ hd => hd⟩,by simp,by simp⟩
  | cons d ds ih =>
    refine holds_op h fun c r s' hok hx => ?_
    cases c with
    | ok =>
      obtain ⟨rfl,rfl⟩ := Prod.mk.inj (Option.some.inj hx)
      rw [if_pos rfl]
      refine Machine.always_mono _ ?_
        (ih (fun e he => hds e (by simp [he])) (hI.enter h (hds d (by simp))))
      rintro made s' - ⟨he,ht,hf⟩
      have hen : Entered s { s with dirs := s.dirs.insert d } :=
        ⟨rfl,fun e he => List.mem_insert_of_mem he⟩
      refine ⟨hen.trans he,fun hm e hmem => ?_,hf⟩
      rcases List.mem_cons.mp hmem with rfl | hmem
      · exact he.dirs e List.mem_insert_self
      · exact ht hm e hmem
    | fault =>
      obtain ⟨rfl,rfl⟩ := Prod.mk.inj (Option.some.inj hx)
      rw [if_neg (by decide)]
      exact ⟨h,⟨rfl,fun _ hd => hd⟩,by simp,fun _ => fault_not hok⟩
    | count n => cases hx

theorem dirPrefixes_length {dir d : Text} (h : d ∈ dirPrefixes dir) : d.length ≤ dir.length := by
  rcases List.mem_append.mp h with h | h
  · obtain ⟨i,_,rfl⟩ := List.mem_map.mp h
    rw [List.length_take]
    omega
  · rw [List.mem_singleton.mp h]

theorem holds_ensureDir (hI : Suits D I) {dir : Text} (hne : dir ≠ [])
    (hl : dir.length ≤ D.taskDir.length) (h : I s) :
    Holds ok I (ensureDirRecursive dir)
      (fun made s' => Entered s s' ∧ (made = true → dir ∈ s'.dirs) ∧
        (made = false → ¬ (NoFault ok ∧ D.Roomy))) s := by
  unfold ensureDirRecursive
  split
  · rename_i hlong
    refine ⟨h,⟨rfl,fun _ hd => hd⟩,by simp,fun _ hr => ?_⟩
    have hroom := hr.2
    simp only [Download.Roomy] at hroom
    rcases hlong with hlong | hlong
    · exact hne hlong
    · omega
  · refine Machine.always_mono s ?_ (holds_makeDirs hI (fun d hd =>
      Download.not_below_short ((dirPrefixes_length hd).trans hl)) h)
    rintro made s' - ⟨he,ht,hf⟩
    refine ⟨he,fun hm => ht hm dir ?_,fun hm hr => hf hm hr.1⟩
    exact List.mem_append_right _ (List.mem_singleton_self _)

theorem roomy_bounded {t : Text} (ht : t.length ≤ D.taskDir.length+16)
    (hb : bounded maxPathLen t = none) : ¬ D.Roomy := by
  intro hroom
  simp only [Download.Roomy] at hroom
  simp only [bounded] at hb
  split at hb
  · cases hb
  · omega

theorem holds_buildTaskPaths (hI : Suits D I) (h : I s) :
    Holds ok I (buildTaskPaths D.dir D.hash)
      (fun r s' => Entered s s' ∧
        (∀ p ∈ r, p = (D.taskDir,D.metaFilePath) ∧ D.taskDir ∈ s'.dirs) ∧
        (r = none → ¬ (NoFault ok ∧ D.Roomy))) s := by
  have hroot : (multipartRoot D.dir).length ≤ D.taskDir.length := by simp [Download.taskDir]
  have hmeta : D.metaFilePath.length = D.taskDir.length+9 := by simp [Download.metaFilePath]
  unfold buildTaskPaths
  cases hb : bounded maxPathLen (multipartRoot D.dir) with
  | none =>
    exact ⟨h,⟨rfl,fun _ hd => hd⟩,by simp,fun _ hr => roomy_bounded (by omega) hb hr.2⟩
  | some root =>
    obtain ⟨rfl,_⟩ := bounded_eq_some.mp hb
    refine holds_bind (holds_ensureDir hI (by simp [multipartRoot]) hroot h) ?_
    rintro made s₁ hs₁ ⟨he,_,hf⟩
    cases made with
    | false => exact ⟨hs₁,he,by simp,fun _ => hf rfl⟩
    | true =>
      rw [if_pos rfl,show multipartRoot D.dir ++ '/'::D.hash = D.taskDir from rfl]
      cases hb : bounded maxPathLen D.taskDir with
      | none => exact ⟨hs₁,he,by simp,fun _ hr => roomy_bounded (by omega) hb hr.2⟩
      | some dir =>
        obtain ⟨rfl,_⟩ := bounded_eq_some.mp hb
        refine holds_bind (holds_ensureDir hI (by simp [Download.taskDir]) le_rfl hs₁) ?_
        rintro made s₂ hs₂ ⟨he₂,hd,hf⟩
        cases made with
        | false => exact ⟨hs₂,he.trans he₂,by simp,fun _ => hf rfl⟩
        | true =>
          rw [if_pos rfl,show D.taskDir ++ "/meta.ini".toList = D.metaFilePath from rfl]
          cases hb : bounded maxPathLen D.metaFilePath with
          | none =>
            exact ⟨hs₂,he.trans he₂,by simp,fun _ hr => roomy_bounded (by omega) hb hr.2⟩
          | some path =>
            obtain ⟨rfl,_⟩ := bounded_eq_some.mp hb
            exact ⟨hs₂,he.trans he₂,fun p hp => ⟨(Option.some.inj hp).symm,hd rfl⟩,by simp⟩

end Directory

section Reload

variable {D : Download} {m m' : MultipartTaskMeta} {plan : MultiGetsPlan}

theorem loadParts_task (l : Text) (is : List PartIndex) (m : MultipartTaskMeta) :
    (loadParts l is m).taskDir = m.taskDir ∧ (loadParts l is m).metaFilePath = m.metaFilePath := by
  induction is generalizing m with
  | nil => exact ⟨rfl,rfl⟩
  | cons i is ih =>
    rw [loadParts]
    split
    · exact ⟨rfl,rfl⟩
    · exact ih _

theorem loadLine_task (m : MultipartTaskMeta) (l : Text) :
    (loadLine m l).taskDir = m.taskDir ∧ (loadLine m l).metaFilePath = m.metaFilePath := by
  unfold loadLine
  split
  · exact ⟨rfl,rfl⟩
  · split
    · exact ⟨rfl,rfl⟩
    · split
      · exact ⟨rfl,rfl⟩
      · split
        · exact ⟨rfl,rfl⟩
        · exact loadParts_task l _ _

theorem loadMetaText_task (m : MultipartTaskMeta) (t : Text) :
    (loadMetaText m t).taskDir = m.taskDir ∧
      (loadMetaText m t).metaFilePath = m.metaFilePath := by
  unfold loadMetaText
  induction fgetsLines 256 t generalizing m with
  | nil => exact ⟨rfl,rfl⟩
  | cons l ls ih => exact ⟨(ih _).1.trans (loadLine_task m l).1,(ih _).2.trans (loadLine_task m l).2⟩

/-- The task is the one of the plan, its files not being named yet. -/
structure Reloaded (D : Download) (plan : MultiGetsPlan) (m : MultipartTaskMeta) : Prop where
  fileName : m.fileName = plan.fileName
  hash : m.fileHash = plan.fileHash
  size : m.fileSize = plan.fileSize
  count : m.partCount = plan.sources.length
  taskDir : m.taskDir = D.taskDir
  metaFilePath : m.metaFilePath = D.metaFilePath
  range : ∀ i : PartIndex, i.val < plan.sources.length → (m.parts i).range =
    ((partStart D.content.length plan.sources.length i.val : ℤ),
      (partStart D.content.length plan.sources.length i.val : ℤ)+
        partSize D.content.length plan.sources.length i.val-1)
  source : ∀ (i : PartIndex) (h : i.val < plan.sources.length),
    (m.parts i).sourceIp = plan.sources[i.val].ip ∧
      (m.parts i).sourcePort = plan.sources[i.val].port

def Download.blank (D : Download) : MultipartTaskMeta :=
  { MultipartTaskMeta.zero with taskDir := D.taskDir, metaFilePath := D.metaFilePath }

/-- Where the text fits the plan, the task read from it is the one of the plan. -/
def Legible (D : Download) (plan : MultiGetsPlan) (t : Text) : Prop :=
  isMetaCompatible (loadMetaText D.blank t) plan = true → Reloaded D plan (loadMetaText D.blank t)

theorem reloaded_of_ranges {n : ℕ} {m₀ : MultipartTaskMeta} (hm : Divided D n m₀)
    (hcount : m.partCount = m₀.partCount)
    (hrange : ∀ i ∈ m₀.indices, (m.parts i).range = (m₀.parts i).range)
    (hdir : m.taskDir = D.taskDir) (hpath : m.metaFilePath = D.metaFilePath)
    (hc : isMetaCompatible m plan = true) : Reloaded D plan m := by
  simp only [isMetaCompatible,Bool.and_eq_true,decide_eq_true_eq,List.all_eq_true] at hc
  obtain ⟨⟨hname,hhash,hsize,_,_,hn⟩,hsource⟩ := hc
  have hnn : n = plan.sources.length := by
    have := hm.count
    omega
  subst hnn
  exact
    { fileName := hname
      hash := hhash
      size := hsize
      count := hn
      taskDir := hdir
      metaFilePath := hpath
      range := fun i hi => (hrange i (hm.mem.mpr hi)).trans (hm.range i hi)
      source := fun i hi => hsource _ (mem_zip_sources plan.sources i hi) }

/-- A task whose `meta.ini` fits the plan has the ranges of the plan. -/
theorem saved_legible (hD : D.Regular) {n : ℕ} {m₀ : MultipartTaskMeta} (hm : Divided D n m₀) :
    Legible D plan (metaText m₀) := by
  intro hc
  obtain ⟨hcount,hrange⟩ := load_metaText (hm.printable hD) D.blank
  obtain ⟨hdir,hpath⟩ := loadMetaText_task D.blank (metaText m₀)
  exact reloaded_of_ranges hm hcount hrange hdir hpath hc

theorem part_path_length (i : PartIndex) : (D.partPath i).length = D.taskDir.length+7 := by
  have h : ∀ i : PartIndex, ("/part_".toList ++ decimal i.val).length = 7 := by decide
  rw [Download.partPath,List.append_assoc,List.length_append,h i]

theorem part_path_roomy (h : D.Roomy) (i : PartIndex) :
    buildPartFilePath D.taskDir i.val maxPathLen = some (D.partPath i) := by
  have hl := part_path_length (D := D) i
  simp only [Download.Roomy] at h
  rw [buildPartFilePath,if_neg (by omega)]
  exact bounded_eq_some.mpr ⟨rfl,by change (D.partPath i).length < _; omega⟩

theorem part_path_long (h : ¬ D.Roomy) (i : PartIndex) :
    buildPartFilePath D.taskDir i.val maxPathLen = none := by
  simp only [Download.Roomy] at h
  rw [buildPartFilePath,if_pos (by omega)]

theorem part_path_some {i : PartIndex} {path : Text}
    (h : buildPartFilePath D.taskDir i.val maxPathLen = some path) : path = D.partPath i := by
  by_cases hr : D.Roomy
  · rw [part_path_roomy hr] at h
    exact (Option.some.inj h).symm
  · rw [part_path_long hr] at h
    cases h

theorem setPartPaths_some {is : List PartIndex} (ht : m.taskDir = D.taskDir)
    (h : setPartPaths is m = some m') :
    m' = { m with parts := m'.parts } ∧
      (∀ i ∈ is, m'.parts i = { m.parts i with partFilePath := D.partPath i }) ∧
      ∀ i ∉ is, m'.parts i = m.parts i := by
  induction is generalizing m with
  | nil =>
    obtain rfl := Option.some.inj h
    exact ⟨rfl,by simp,fun _ _ => rfl⟩
  | cons i is ih =>
    rw [setPartPaths,ht] at h
    cases hp : buildPartFilePath D.taskDir i.val maxPathLen with
    | none =>
      rw [hp] at h
      cases h
    | some path =>
      rw [hp] at h
      obtain rfl := part_path_some hp
      obtain ⟨hsame,hin,hout⟩ :=
        ih (m := m.setPart i { m.parts i with partFilePath := D.partPath i }) ht h
      refine ⟨hsame,fun j hj => ?_,fun j hj => ?_⟩
      · by_cases hji : j = i
        · subst hji
          by_cases hjs : j ∈ is
          · rw [hin j hjs,setPart_self]
          · rw [hout j hjs,setPart_self]
        · rw [hin j ((List.mem_cons.mp hj).resolve_left hji),setPart_other _ _ hji]
      · have hji : j ≠ i := fun hc => hj (by simp [hc])
        rw [hout j fun hc => hj (by simp [hc]),setPart_other _ _ hji]

theorem setPartPaths_roomy (h : D.Roomy) (is : List PartIndex) (ht : m.taskDir = D.taskDir) :
    ∃ m', setPartPaths is m = some m' := by
  induction is generalizing m with
  | nil => exact ⟨m,rfl⟩
  | cons i is ih =>
    rw [setPartPaths,ht,part_path_roomy h]
    exact ih ht

theorem fits_source (hplan : PlanFor D plan) {source : SourceServer} (h : source ∈ plan.sources) :
    Fits source.ip ∧ Fits source.port := by
  have hip := hplan.ip source h
  have hport := hplan.port source h
  exact ⟨⟨hip.1,by omega⟩,⟨hport.1,by omega⟩⟩

theorem Reloaded.planned (hplan : PlanFor D plan) (h : Reloaded D plan m)
    (hp : setPartPaths m.indices m = some m') : Planned D plan m' := by
  obtain ⟨hsame,hparts,_⟩ := setPartPaths_some h.taskDir hp
  have hin : ∀ i : PartIndex, i.val < plan.sources.length → i ∈ m.indices := by
    intro i hi
    rw [mem_indices,h.count]
    omega
  have hsource : ∀ (i : PartIndex) (hi : i.val < plan.sources.length),
      (m'.parts i).sourceIp = plan.sources[i.val].ip ∧
        (m'.parts i).sourcePort = plan.sources[i.val].port := by
    intro i hi
    rw [hparts i (hin i hi)]
    exact h.source i hi
  exact
    { cut :=
        { pos := hplan.pos
          bound := hplan.bound
          count := by rw [hsame]; exact h.count
          hash := by rw [hsame]; exact h.hash.trans hplan.fileHash
          size := by rw [hsame]; exact h.size.trans hplan.fileSize
          taskDir := by rw [hsame]; exact h.taskDir
          metaFilePath := by rw [hsame]; exact h.metaFilePath
          range := fun i hi => by rw [hparts i (hin i hi)]; exact h.range i hi
          path := fun i hi => by rw [hparts i (hin i hi)]
          source := fun i hi => by
            rw [(hsource i hi).1,(hsource i hi).2]
            exact fits_source hplan (List.getElem_mem hi) }
      fileName := by rw [hsame]; exact h.fileName
      source := hsource }

end Reload

section Rebuild

variable {D : Download} {m m' : MultipartTaskMeta} {plan : MultiGetsPlan}

theorem initPartsFromPlan_eq (hplan : PlanFor D plan) (m : MultipartTaskMeta) :
    initPartsFromPlan plan.fileSize plan m =
      initParts ((D.content.length/plan.sources.length : ℕ) : ℤ)
        ((List.finRange maxSourceServerCount).zip plan.sources)
        ((D.content.length%plan.sources.length-0 : ℕ) : ℤ)
        (partStart D.content.length plan.sources.length 0)
        { m with partCount := plan.sources.length } := by
  rw [hplan.fileSize]
  exact initPartsFromPlan_loop hplan.pos hplan.bound _ m

theorem rebuilt_planned (hplan : PlanFor D plan) (hh : m.fileHash = D.hash)
    (hs : m.fileSize = D.content.length) (ht : m.taskDir = D.taskDir)
    (hp : m.metaFilePath = D.metaFilePath) (hn : m.fileName = plan.fileName)
    (h : initPartsFromPlan plan.fileSize plan m = some m') :
    Planned D plan m' ∧ Divided D plan.sources.length m' := by
  rw [initPartsFromPlan_eq hplan] at h
  obtain ⟨hsame,hparts,_⟩ := initParts_parts D.content.length plan.sources.length
    (consecutive_sources plan.sources) h
  have hinfo : ∀ (i : PartIndex) (hi : i.val < plan.sources.length), m'.parts i =
      partInfo D.content.length plan.sources.length i plan.sources[i.val] (D.partPath i) := by
    intro i hi
    obtain ⟨path,hpath,hpart⟩ := hparts _ (mem_zip_sources plan.sources i hi)
    have hp : path = D.partPath i := part_path_some (by rw [← ht]; exact hpath)
    rw [hpart,hp]
  have hsource : ∀ (i : PartIndex) (hi : i.val < plan.sources.length),
      (m'.parts i).sourceIp = plan.sources[i.val].ip ∧
        (m'.parts i).sourcePort = plan.sources[i.val].port := by
    intro i hi
    have hip := (hplan.ip _ (List.getElem_mem hi)).2
    have hport := (hplan.port _ (List.getElem_mem hi)).2
    rw [hinfo i hi]
    exact ⟨List.take_of_length_le (by omega),List.take_of_length_le (by omega)⟩
  have hcut : Cut D plan.sources.length m' :=
    { pos := hplan.pos
      bound := hplan.bound
      count := by rw [hsame]
      hash := by rw [hsame]; exact hh
      size := by rw [hsame]; exact hs
      taskDir := by rw [hsame]; exact ht
      metaFilePath := by rw [hsame]; exact hp
      range := fun i hi => by rw [hinfo i hi]; rfl
      path := fun i hi => by rw [hinfo i hi]; rfl
      source := fun i hi => by
        rw [(hsource i hi).1,(hsource i hi).2]
        exact fits_source hplan (List.getElem_mem hi) }
  refine ⟨⟨hcut,by rw [hsame]; exact hn,hsource⟩,hcut,fun i hi => ?_⟩
  rw [hinfo i hi]
  exact ⟨Int.le_refl _,Int.natCast_nonneg _⟩

theorem initParts_roomy (h : D.Roomy) (baseSize : ℤ) (l : List (PartIndex × SourceServer))
    (remainder start : ℤ) (ht : m.taskDir = D.taskDir) :
    ∃ m', initParts baseSize l remainder start m = some m' := by
  induction l generalizing remainder start m with
  | nil => exact ⟨m,rfl⟩
  | cons e l ih =>
    obtain ⟨i,source⟩ := e
    rw [initParts,ht,part_path_roomy h]
    dsimp only
    split
    · exact ih _ _ ht
    · exact ih _ _ ht

theorem initPartsFromPlan_none (hplan : PlanFor D plan)
    (h : initPartsFromPlan plan.fileSize plan m = none) (ht : m.taskDir = D.taskDir) :
    ¬ D.Roomy := by
  intro hr
  rw [initPartsFromPlan_eq hplan] at h
  obtain ⟨m',hm⟩ := initParts_roomy (D := D) (m := { m with partCount := plan.sources.length }) hr
    ((D.content.length/plan.sources.length : ℕ) : ℤ)
    ((List.finRange maxSourceServerCount).zip plan.sources)
    ((D.content.length%plan.sources.length-0 : ℕ) : ℤ)
    (partStart D.content.length plan.sources.length 0) ht
  rw [h] at hm
  cases hm

end Rebuild

section Prepare

variable {D : Download} {ok : Op → State → Choice → Prop} {I : State → Prop} {s : State}
  {m : MultipartTaskMeta} {plan : MultiGetsPlan} {α : Type} {Q : α → State → Prop}

/-- What `meta.ini` holds, if it is there, is legible. -/
def Readable (D : Download) (plan : MultiGetsPlan) (s : State) : Prop :=
  ∀ t, s.files.lookup D.metaFilePath = some t → Legible D plan t

theorem kept_readable {origin : PartIndex → ℕ} {allowed : PartIndex → Prop} {env : Environment}
    (hD : D.Regular) (h : Kept D origin allowed env s) : Readable D plan s := by
  intro t ht
  obtain ⟨n,m,hm,rfl⟩ := h.saved t ht
  exact saved_legible hD hm

theorem holds_saveMeta {f : Bool → Client α} (h : I s) {n : ℕ} (hm : Divided D n m)
    (hsaved : Holds ok I (f true) Q (s.put D.metaFilePath (metaText m)))
    (hfailed : ¬ NoFault ok → Holds ok I (f false) Q s) :
    Holds ok I (saveMetaFile m >>= f) Q s := by
  unfold saveMetaFile
  rw [hm.metaFilePath]
  exact holds_save h hsaved hfailed

theorem holds_reloadTask (h : I s) (hread : Readable D plan s) :
    Holds ok I (reloadTask D.blank plan)
      (fun r s' => s' = s ∧ ∀ loaded ∈ r, Reloaded D plan loaded) s := by
  have hnone : Holds ok I (pure none)
      (fun r s' => s' = s ∧ ∀ loaded ∈ r, Reloaded D plan loaded) s := ⟨h,rfl,by simp⟩
  unfold reloadTask
  refine holds_op h fun c r s' _ hx => ?_
  cases c with
  | ok =>
    obtain ⟨rfl,rfl⟩ := Prod.mk.inj (Option.some.inj hx)
    split
    · refine holds_bind (R := fun r s' => s' = s ∧ ∀ loaded ∈ r, ∃ t,
        s.files.lookup D.metaFilePath = some t ∧ loaded = loadMetaText D.blank t) ?_ ?_
      · refine holds_op h fun c r s' _ hx => ?_
        cases c with
        | ok =>
          obtain ⟨rfl,rfl⟩ := Prod.mk.inj (Option.some.inj hx)
          rw [show D.blank.metaFilePath = D.metaFilePath from rfl]
          cases hl : s.files.lookup D.metaFilePath with
          | none => exact ⟨h,rfl,by simp⟩
          | some t => exact ⟨h,rfl,fun loaded hm => ⟨t,rfl,(Option.some.inj hm).symm⟩⟩
        | fault =>
          obtain ⟨rfl,rfl⟩ := Prod.mk.inj (Option.some.inj hx)
          exact ⟨h,rfl,by simp⟩
        | count n => cases hx
      · rintro loaded _ - ⟨rfl,hloaded⟩
        cases loaded with
        | none => exact hnone
        | some loaded =>
          obtain ⟨t,hl,rfl⟩ := hloaded _ rfl
          dsimp only
          split
          · rename_i hc
            refine ⟨h,rfl,fun loaded hm => ?_⟩
            obtain rfl := Option.some.inj hm
            exact hread t hl hc
          · exact hnone
    · exact hnone
  | fault =>
    obtain ⟨rfl,rfl⟩ := Prod.mk.inj (Option.some.inj hx)
    exact hnone
  | count n => cases hx

/-- The prepared task is the one of the plan, in a task directory that exists. -/
def Prepared (D : Download) (ok : Op → State → Choice → Prop) (plan : MultiGetsPlan) (s : State)
    (r : Option MultipartTaskMeta) (s' : State) : Prop :=
  (∀ d ∈ s.dirs, d ∈ s'.dirs) ∧
    (∀ m ∈ r, Planned D plan m ∧ Divided D plan.sources.length m) ∧
    (r = none → ¬ (NoFault ok ∧ D.Roomy))

theorem holds_resumeTask (hI : Suits D I) (hplan : PlanFor D plan) (h : I s)
    (hm : Reloaded D plan m) : Holds ok I (resumeTask m) (Prepared D ok plan s) s := by
  unfold resumeTask
  cases hp : setPartPaths m.indices m with
  | none =>
    refine ⟨h,fun _ hd => hd,by simp,fun _ hr => ?_⟩
    obtain ⟨m',hs⟩ := setPartPaths_roomy hr.2 m.indices hm.taskDir
    rw [hp] at hs
    cases hs
  | some m₁ =>
    have hplanned := hm.planned hplan hp
    refine holds_bind (holds_syncParts h (indices_nodup m₁) m₁) ?_
    rintro m₂ _ - ⟨rfl,hr⟩
    have hdiv := hr.divided hplanned.cut
    refine holds_saveMeta h hdiv ?_ ?_
    · refine ⟨hI.save h hdiv,fun _ hd => hd,fun m hm => ?_,by simp⟩
      obtain rfl := Option.some.inj hm
      exact ⟨hr.toSameTask.planned hplanned,hdiv⟩
    · exact fun hf => ⟨h,fun _ hd => hd,by simp,fun _ hn => hf hn.1⟩

theorem holds_rebuildTask (hI : Suits D I) (hD : D.Regular) (hplan : PlanFor D plan) (h : I s) :
    Holds ok I (rebuildTask D.dir plan) (Prepared D ok plan s) s := by
  have hhash : plan.fileHash.take 64 = D.hash := by
    rw [hplan.fileHash,List.take_of_length_le (by rw [hD.length])]
  have hname : plan.fileName.take (fileNameLen-1) = plan.fileName :=
    List.take_of_length_le (by have := hplan.name; omega)
  unfold rebuildTask
  rw [hhash,hname]
  refine holds_bind (holds_buildTaskPaths hI h) ?_
  rintro paths s₁ h₁ ⟨he,hpaths,hnone⟩
  cases paths with
  | none => exact ⟨h₁,he.dirs,by simp,fun _ => hnone rfl⟩
  | some paths =>
    obtain ⟨rfl,_⟩ := hpaths _ rfl
    dsimp only
    generalize hi : initPartsFromPlan plan.fileSize plan _ = r
    cases r with
    | none => exact ⟨h₁,he.dirs,by simp,fun _ hr => initPartsFromPlan_none hplan hi rfl hr.2⟩
    | some m =>
      obtain ⟨hplanned,hdiv⟩ := rebuilt_planned hplan rfl hplan.fileSize rfl rfl rfl hi
      refine holds_saveMeta h₁ hdiv ?_ ?_
      · refine ⟨hI.save h₁ hdiv,he.dirs,fun m hm => ?_,by simp⟩
        obtain rfl := Option.some.inj hm
        exact ⟨hplanned,hdiv⟩
      · exact fun hf => ⟨h₁,he.dirs,by simp,fun _ hn => hf hn.1⟩

/-- Whatever is found in the task directory, a prepared task is the one of the plan. -/
theorem holds_multipartTaskPrepare (hI : Suits D I) (hD : D.Regular) (hplan : PlanFor D plan)
    (h : I s) (hread : Readable D plan s) :
    Holds ok I (multipartTaskPrepare D.dir plan)
      (fun r s' => (∀ m ∈ r, D.taskDir ∈ s'.dirs) ∧ Prepared D ok plan s r s') s := by
  unfold multipartTaskPrepare
  rw [hplan.fileHash]
  refine holds_bind (holds_buildTaskPaths hI h) ?_
  rintro paths s₁ h₁ ⟨he,hpaths,hnone⟩
  cases paths with
  | none => exact ⟨h₁,by simp,he.dirs,by simp,fun _ => hnone rfl⟩
  | some paths =>
    obtain ⟨rfl,hdir⟩ := hpaths _ rfl
    have hread₁ : Readable D plan s₁ := by
      rw [he.same]
      exact hread
    refine holds_bind (holds_reloadTask h₁ hread₁) ?_
    rintro loaded s₂ - ⟨rfl,hloaded⟩
    have hpost : ∀ r s', I s' → Prepared D ok plan s₂ r s' →
        (∀ m ∈ r, D.taskDir ∈ s'.dirs) ∧ Prepared D ok plan s r s' :=
      fun r s' _ hp => ⟨fun _ _ => hp.1 _ hdir,fun d hd => hp.1 d (he.dirs d hd),hp.2⟩
    cases loaded with
    | none => exact Machine.always_mono _ hpost (holds_rebuildTask hI hD hplan h₁)
    | some loaded =>
      exact Machine.always_mono _ hpost (holds_resumeTask hI hplan h₁ (hloaded _ rfl))

theorem counted_meta {p : MultipartPartInfo} {i : PartIndex} {t : Text}
    (hp : p.partFilePath = D.partPath i) (h : Counted ok s p) :
    Counted ok (s.put D.metaFilePath t) p := by
  unfold Counted at h ⊢
  rw [hp] at h ⊢
  rwa [State.put,AList.lookup_insert_ne (Download.partPath_ne_meta i)]

/-- The progress of a refreshed task is what its part files hold. -/
structure Synced (D : Download) (ok : Op → State → Choice → Prop) (n : ℕ) (s : State)
    (m : MultipartTaskMeta) : Prop where
  divided : Divided D n m
  counted : ∀ i : PartIndex, i.val < n → Counted ok s (m.parts i)

theorem holds_multipartTaskSyncProgress (hI : Suits D I) (h : I s) {n : ℕ} (hm : Cut D n m) :
    Holds ok I (multipartTaskSyncProgress m)
      (fun r s' => Refreshed ok s m.indices m r.2 ∧ Synced D ok n s' r.2 ∧
        (∃ t, s' = s ∨ s' = s.put D.metaFilePath t) ∧ (r.1 = false → ¬ NoFault ok)) s := by
  unfold multipartTaskSyncProgress
  refine holds_bind (holds_syncParts h (indices_nodup m) m) ?_
  rintro m' s' - ⟨rfl,hr⟩
  have hdiv := hr.divided hm
  have hcount : ∀ i : PartIndex, i.val < n → Counted ok s' (m'.parts i) :=
    fun i hi => hr.counted i (hm.mem.mpr hi)
  refine holds_saveMeta h hdiv ?_ ?_
  · refine ⟨hI.save h hdiv,hr,⟨hdiv,fun i hi => ?_⟩,⟨_,.inr rfl⟩,by simp⟩
    exact counted_meta (hdiv.path i hi) (hcount i hi)
  · exact fun hf => ⟨h,hr,⟨hdiv,hcount⟩,⟨[],.inl rfl⟩,fun _ => hf⟩

theorem holds_print (hI : Suits D I) {msg : Text} {f : Unit → Client α} (h : I s)
    (hf : ∀ s', I s' → s' = { s with printed := s.printed ++ [msg] } → Holds ok I (f ()) Q s') :
    Holds ok I (perform (.print msg) >>= f) Q s := by
  refine holds_op h fun c r s' _ hx => ?_
  cases c with
  | ok =>
    obtain ⟨_,rfl⟩ := Prod.mk.inj (Option.some.inj hx)
    exact hf _ (hI.print msg h) rfl
  | fault => cases hx
  | count n => cases hx

theorem holds_prepareDownload (hI : Suits D I) (hD : D.Regular) (hplan : PlanFor D plan) (h : I s)
    (hread : Readable D plan s) :
    Holds ok I (prepareDownload D.dir plan)
      (fun r s' => (∀ m ∈ r, Planned D plan m ∧ Synced D ok plan.sources.length s' m ∧
        D.taskDir ∈ s'.dirs) ∧ (r = none → ¬ (NoFault ok ∧ D.Roomy))) s := by
  unfold prepareDownload
  refine holds_bind (holds_multipartTaskPrepare hI hD hplan h hread) ?_
  rintro r s₁ h₁ ⟨hdir,_,hr,hnone⟩
  cases r with
  | none => exact holds_print hI h₁ fun s' h' _ => ⟨h',by simp,fun _ => hnone rfl⟩
  | some m =>
    obtain ⟨hplanned,_⟩ := hr m rfl
    refine holds_bind (holds_multipartTaskSyncProgress hI h₁ hplanned.cut) ?_
    rintro ⟨saved,m'⟩ s₂ h₂ ⟨href,hsync,⟨t,hs₂⟩,hf⟩
    cases saved with
    | true =>
      refine ⟨h₂,fun m hm => ?_,by simp⟩
      obtain rfl := Option.some.inj hm
      refine ⟨href.toSameTask.planned hplanned,hsync,?_⟩
      rcases hs₂ with rfl | rfl
      · exact hdir _ rfl
      · exact hdir _ rfl
    | false => exact holds_print hI h₂ fun s' h' _ => ⟨h',by simp,fun _ hn => hf rfl hn.1⟩

end Prepare

end Client

end WindCloud
