import WindCloud.Client.Completion

/-!
# A `meta.ini` that breaks off

The last line of `meta.ini` holds a port, and the port is compared with the
plan. A text that breaks off before that line has no port for the last part and
fits no plan; one that breaks off in it has all the ranges. Either way the task
that is prepared is the one that was saved.
-/

set_option autoImplicit false

namespace WindCloud
open CString Effect Function

namespace Client

section Views

variable {α : Type} {m : MultipartTaskMeta} {i : PartIndex} {l : Text}

theorem loadParts_view (view : MultipartPartInfo → α)
    (h : ∀ p, view (loadPartLine l i p).2 = view p) (is : List PartIndex) (m : MultipartTaskMeta) :
    view ((loadParts l is m).parts i) = view (m.parts i) := by
  induction is generalizing m with
  | nil => rfl
  | cons j is ih =>
    have hset : view ((m.setPart j (loadPartLine l j (m.parts j)).2).parts i) =
        view (m.parts i) := by
      by_cases hij : i = j
      · subst hij
        rw [setPart_self]
        exact h _
      · rw [setPart_other _ _ hij]
    rw [loadParts]
    split
    · exact hset
    · exact (ih _).trans hset

theorem loadLine_view (view : MultipartPartInfo → α)
    (h : ∀ p, view (loadPartLine l i p).2 = view p) (m : MultipartTaskMeta) :
    view ((loadLine m l).parts i) = view (m.parts i) := by
  unfold loadLine
  split
  · rfl
  · split
    · rfl
    · split
      · rfl
      · split
        · rfl
        · exact loadParts_view view h _ _

theorem loadPartLine_port (h : (partKey i "_port=").isPrefixOf l = false)
    (p : MultipartPartInfo) : (loadPartLine l i p).2.sourcePort = p.sourcePort := by
  rw [loadPartLine]
  split
  · rfl
  · split
    · rfl
    · split
      · rfl
      · split
        · rfl
        · rw [parseString_other h]

theorem loadPartLine_range (hs : (partKey i "_start=").isPrefixOf l = false)
    (he : (partKey i "_end=").isPrefixOf l = false) (p : MultipartPartInfo) :
    (loadPartLine l i p).2.range = p.range := by
  rw [loadPartLine,parseOffset_other hs,parseOffset_other he]
  dsimp only
  split
  · rfl
  · split
    · rfl
    · split <;> rfl

theorem loadParts_count (l : Text) (is : List PartIndex) (m : MultipartTaskMeta) :
    (loadParts l is m).partCount = m.partCount := by
  induction is generalizing m with
  | nil => rfl
  | cons i is ih =>
    rw [loadParts]
    split
    · rfl
    · exact ih _

theorem loadLine_count_other (h : "part_count=".toList.isPrefixOf l = false)
    (m : MultipartTaskMeta) : (loadLine m l).partCount = m.partCount := by
  unfold loadLine
  rw [h]
  split
  · rfl
  · split
    · rfl
    · split
      · rfl
      · exact loadParts_count l _ _

end Views

section Keys

variable {i j : PartIndex} {f g : String} {l v : Text}

theorem isPrefixOf_cut {key cut : Text} (hcut : cut <+: l) (h : key.isPrefixOf l = false) :
    key.isPrefixOf cut = false := by
  by_contra hc
  have hk : key <+: cut := List.isPrefixOf_iff_prefix.mp (by simpa using hc)
  rw [List.isPrefixOf_iff_prefix.mpr (hk.trans hcut)] at h
  cases h

theorem part_apart (hf : f ∈ fields) (hg : g ∈ fields) (h : ¬ (i = j ∧ f = g)) :
    (partKey i f).isPrefixOf (partKey j g ++ v) = false := by
  by_contra hp
  exact h (partKey_isPrefixOf hf hg (by simpa using hp))

def headers : List String := ["file_name=","file_hash=","file_size=","part_count="]

theorem header_apart (hg : g ∈ headers) : (partKey i f).isPrefixOf (g.toList ++ v) = false := by
  have hd : ∀ j : PartIndex, Nat.digitChar j.val ≠ 'c' := by decide
  by_contra hp
  have h : partKey i f <+: g.toList ++ v := List.isPrefixOf_iff_prefix.mp (by simpa using hp)
  rw [partKey_eq] at h
  simp only [headers,List.mem_cons,List.not_mem_nil,or_false] at hg
  rcases hg with rfl | rfl | rfl | rfl
  · exact absurd (List.cons_prefix_cons.mp h).1 (by decide)
  · exact absurd (List.cons_prefix_cons.mp h).1 (by decide)
  · exact absurd (List.cons_prefix_cons.mp h).1 (by decide)
  · rw [show "part_count=".toList ++ v = "part_".toList ++ 'c'::("ount=".toList ++ v) from rfl,
      List.prefix_append_right_inj,List.cons_prefix_cons] at h
    exact hd i h.1

end Keys

section Cuts

variable {D : Download} {plan : MultiGetsPlan} {m : MultipartTaskMeta} {i : PartIndex} {l : Text}

def headerLines (m : MultipartTaskMeta) : List Text :=
  ["file_name=".toList ++ m.fileName,"file_hash=".toList ++ m.fileHash,
    "file_size=".toList ++ decimal m.fileSize,"part_count=".toList ++ decimal m.partCount]

def allLines (m : MultipartTaskMeta) : List Text :=
  headerLines m ++ m.indices.flatMap fun i => partLines i (m.parts i)

theorem allLines_eq (m : MultipartTaskMeta) :
    allLines m = ("file_name=".toList ++ m.fileName)::metaLines m := rfl

theorem metaText_lines (m : MultipartTaskMeta) : metaText m = (allLines m).flatMap line := by
  rw [allLines_eq,List.flatMap_cons,metaText]

def portLine (m : MultipartTaskMeta) (i : PartIndex) : Text :=
  partKey i "_port=" ++ (m.parts i).sourcePort

/-- Nothing a line begins with is the port of part `i`. -/
def Portless (i : PartIndex) (l : Text) : Prop := (partKey i "_port=").isPrefixOf (line l) = false

theorem header_portless {g : String} (hg : g ∈ headers) (v : Text) :
    Portless i (g.toList ++ v) := by
  rw [Portless,line,List.append_assoc]
  exact header_apart hg

theorem part_portless {j : PartIndex} {g : String} (hg : g ∈ fields)
    (h : ¬ (i = j ∧ "_port=" = g)) (v : Text) : Portless i (partKey j g ++ v) := by
  rw [Portless,line,List.append_assoc]
  exact part_apart (by decide) hg h

theorem partLines_portless {j : PartIndex} (hij : i ≠ j) (p : MultipartPartInfo) :
    ∀ l ∈ partLines j p, Portless i l := by
  intro l hl
  have hne : ∀ g, ¬ (i = j ∧ "_port=" = g) := fun g h => hij h.1
  simp only [partLines,List.mem_cons,List.not_mem_nil,or_false] at hl
  rcases hl with rfl | rfl | rfl | rfl | rfl <;> exact part_portless (by decide) (hne _) _

def portlessLines (m : MultipartTaskMeta) (i : PartIndex) : List Text :=
  [partKey i "_start=" ++ decimal (m.parts i).rangeStart,
    partKey i "_end=" ++ decimal (m.parts i).rangeEnd,
    partKey i "_finished=" ++ decimal (m.parts i).finishedBytes,
    partKey i "_ip=" ++ (m.parts i).sourceIp]

theorem allLines_last {k : ℕ} (hcount : m.partCount = (k+1 : ℕ))
    (hbound : k+1 ≤ maxSourceServerCount) : ∃ early, ∃ i : PartIndex, i.val = k ∧
      allLines m = early ++ [portLine m i] ∧ ∀ l ∈ early, Portless i l := by
  have hval := indices_val hcount hbound
  rw [List.range_succ] at hval
  obtain ⟨is,js,hindices,his,hjs⟩ := List.map_eq_append_iff.mp hval
  obtain ⟨i,rfl,hi⟩ := List.map_eq_singleton_iff.mp hjs
  have hne : ∀ j ∈ is, i ≠ j := by
    rintro j hj rfl
    have hmem : i.val ∈ List.range k := by
      rw [← his]
      exact List.mem_map_of_mem hj
    have := List.mem_range.mp hmem
    omega
  refine ⟨headerLines m ++ (is.flatMap fun j => partLines j (m.parts j)) ++ portlessLines m i,i,
    hi,?_,?_⟩
  · rw [allLines,hindices,List.flatMap_append,List.append_assoc,List.append_assoc]
    rfl
  · intro l hl
    rcases List.mem_append.mp hl with hl | hl
    · rcases List.mem_append.mp hl with hl | hl
      · simp only [headerLines,List.mem_cons,List.not_mem_nil,or_false] at hl
        rcases hl with rfl | rfl | rfl | rfl <;> exact header_portless (by decide) _
      · obtain ⟨j,hj,hl⟩ := List.mem_flatMap.mp hl
        exact partLines_portless (hne j hj) _ l hl
    · simp only [portlessLines,List.mem_cons,List.not_mem_nil,or_false] at hl
      rcases hl with rfl | rfl | rfl | rfl <;> exact part_portless (by decide) (by simp) _

theorem load_portless {ls : List Text} (h : ∀ l ∈ ls, (partKey i "_port=").isPrefixOf l = false)
    (m : MultipartTaskMeta) :
    ((ls.foldl loadLine m).parts i).sourcePort = (m.parts i).sourcePort := by
  induction ls generalizing m with
  | nil => rfl
  | cons l ls ih =>
    have hl := loadLine_view MultipartPartInfo.sourcePort (loadPartLine_port (h l (by simp))) m
    exact (ih (fun k hk => h k (by simp [hk])) _).trans hl

theorem load_portLine {cut : Text} (hcut : cut <+: line (portLine m i)) (m₁ : MultipartTaskMeta) :
    (loadLine m₁ cut).partCount = m₁.partCount ∧
      ∀ j, ((loadLine m₁ cut).parts j).range = (m₁.parts j).range := by
  rw [portLine,line,List.append_assoc] at hcut
  refine ⟨loadLine_count_other (isPrefixOf_cut hcut (partKey_header i "_port=" _).2.2.2) m₁,
    fun j => ?_⟩
  refine loadLine_view MultipartPartInfo.range (loadPartLine_range ?_ ?_) m₁
  · exact isPrefixOf_cut hcut (part_apart (by decide) (by decide) (by simp))
  · exact isPrefixOf_cut hcut (part_apart (by decide) (by decide) (by simp))

theorem allLines_fit (hm : Printable m) (hname : Fits m.fileName) :
    ∀ l ∈ allLines m, '\n' ∉ l ∧ l.length+1 < 256 := by
  intro l hl
  rw [allLines_eq] at hl
  rcases List.mem_cons.mp hl with rfl | hl
  · exact key_line (by decide) hname
  · exact metaLines_fit hm l hl

theorem load_early {early a b : List Text} {cut : Text} (hearly : ∀ l ∈ early, Portless i l)
    (hab : early = a ++ b) (hb : b ≠ []) (hcut : cut <+: b.headD []) (m : MultipartTaskMeta) :
    (((a.map line ++ if cut = [] then [] else [cut]).foldl loadLine m).parts i).sourcePort =
      (m.parts i).sourcePort := by
  refine load_portless (fun l hl => ?_) m
  rcases List.mem_append.mp hl with hl | hl
  · obtain ⟨k,hk,rfl⟩ := List.mem_map.mp hl
    exact hearly k (by simp [hab,hk])
  · cases b with
    | nil => exact absurd rfl hb
    | cons x b =>
      have hx : Portless i x := hearly x (by simp [hab])
      split at hl
      · cases hl
      · obtain rfl := List.mem_singleton.mp hl
        exact isPrefixOf_cut (hcut.trans (List.prefix_append x ['\n'])) hx

theorem load_late (early : List Text) {cut : Text} (hcut : cut <+: portLine m i)
    (m₀ : MultipartTaskMeta) :
    ((early.map line ++ if cut = [] then [] else [cut]).foldl loadLine m₀).partCount =
        ((early.map line).foldl loadLine m₀).partCount ∧
      ∀ j, (((early.map line ++ if cut = [] then [] else [cut]).foldl loadLine m₀).parts j).range =
        (((early.map line).foldl loadLine m₀).parts j).range := by
  rw [List.foldl_append]
  split
  · exact ⟨rfl,fun _ => rfl⟩
  · exact load_portLine (hcut.trans (List.prefix_append _ ['\n'])) _

/-- Whatever is left of a saved task, it fits the plan only with the ranges of the plan. -/
theorem cut_legible (hD : D.Regular) (hport : ∀ source ∈ plan.sources, source.port ≠ [])
    (hpos : 0 < plan.sources.length) (hm : Divided D plan.sources.length m)
    (hname : Fits m.fileName) {t : Text} (ht : t <+: metaText m) : Legible D plan t := by
  have hfit := allLines_fit (hm.printable hD) hname
  obtain ⟨k,hk⟩ := Nat.exists_eq_add_of_le' hpos
  obtain ⟨early,i,hi,hall,hearly⟩ := allLines_last (hm.count.trans (by rw [hk])) (hk ▸ hm.bound)
  rw [metaText_lines] at ht
  obtain ⟨a,b,cut,hab,hcut,hlines⟩ := fgetsLines_prefix _ hfit ht
  rcases List.eq_nil_or_concat b with rfl | ⟨b,x,rfl⟩
  · -- nothing is missing
    obtain rfl := List.prefix_nil.mp hcut
    have hsame : fgetsLines 256 t = fgetsLines 256 (metaText m) := by
      rw [hlines,metaText_lines,fgetsLines_flatMap _ hfit,hab,List.append_nil,if_pos rfl,
        List.append_nil]
    have hsaved : Legible D plan (metaText m) := saved_legible hD hm
    rwa [Legible,loadMetaText,← hsame] at hsaved
  · rw [hall,List.concat_eq_append,← List.append_assoc] at hab
    obtain ⟨rfl,hx⟩ := List.append_inj' hab rfl
    obtain rfl := List.singleton_inj.mp hx
    intro hc
    obtain ⟨hdir,hpath⟩ := loadMetaText_task D.blank t
    cases b with
    | nil =>
      -- it breaks off in the last line
      rw [List.append_nil] at hall
      obtain ⟨hcount,hrange⟩ := load_metaText (hm.printable hD) D.blank
      have hfull : loadMetaText D.blank (metaText m) =
          loadLine ((a.map line).foldl loadLine D.blank) (line (portLine m i)) := by
        rw [loadMetaText,metaText_lines,fgetsLines_flatMap _ hfit,hall,List.map_append,
          List.foldl_append]
        rfl
      obtain ⟨hcount',hrange'⟩ := load_portLine (m := m) (i := i) List.prefix_rfl
        ((a.map line).foldl loadLine D.blank)
      obtain ⟨hcut₁,hcut₂⟩ := load_late a hcut D.blank
      rw [← hlines] at hcut₁ hcut₂
      rw [hfull,hcount'] at hcount
      refine reloaded_of_ranges hm (hcut₁.trans hcount) (fun j hj => ?_) hdir hpath hc
      have hj' := hrange j hj
      rw [hfull,hrange'] at hj'
      exact (hcut₂ j).trans hj'
    | cons y b =>
      -- it breaks off before, and the last part has no port
      have hnone := load_early hearly rfl (List.cons_ne_nil y b) hcut D.blank
      rw [← hlines] at hnone
      simp only [isMetaCompatible,Bool.and_eq_true,List.all_eq_true,decide_eq_true_eq] at hc
      have hin : i.val < plan.sources.length := by omega
      have hsource := (hc.2 _ (mem_zip_sources plan.sources i hin)).2
      exact absurd (hsource.symm.trans hnone) (hport _ (List.getElem_mem hin))

end Cuts

section Plans

/-- A plan with every field within its array, and on one line. -/
structure Announced (plan : MultiGetsPlan) : Prop where
  pos : 0 < plan.sources.length
  bound : plan.sources.length ≤ maxSourceServerCount
  name : Fits plan.fileName
  hash : '\n' ∉ plan.fileHash ∧ plan.fileHash.length = 64
  size : 0 ≤ plan.fileSize ∧ plan.fileSize ≤ offMax
  ip : ∀ source ∈ plan.sources, '\n' ∉ source.ip ∧ source.ip.length < 64
  port : ∀ source ∈ plan.sources,
    source.port ≠ [] ∧ '\n' ∉ source.port ∧ source.port.length < 16

/-- The task of the plan before it is split into parts. -/
def newTask (dir : Text) (plan : MultiGetsPlan) : MultipartTaskMeta :=
  { MultipartTaskMeta.zero with
    fileName := plan.fileName.take (fileNameLen-1)
    fileHash := plan.fileHash.take 64
    fileSize := plan.fileSize
    taskDir := multipartRoot dir ++ '/'::plan.fileHash.take 64
    metaFilePath := multipartRoot dir ++ '/'::plan.fileHash.take 64 ++ "/meta.ini".toList }

/-- The task of the plan after any progress of its parts. -/
structure Progressed (dir : Text) (plan : MultiGetsPlan) (m₀ m : MultipartTaskMeta) : Prop where
  split : initPartsFromPlan plan.fileSize plan (newTask dir plan) = some m₀
  task : m = { m₀ with parts := m.parts }
  part : ∀ i, ∃ n, m.parts i = { m₀.parts i with finishedBytes := n } ∧
    (i ∈ m₀.indices → 0 ≤ n ∧ n ≤ partTotalSize (m₀.parts i))

/-- The task is the saved one, and its progress is what the part files hold. -/
structure Restored (saved : MultipartTaskMeta) (s : State) (m : MultipartTaskMeta) : Prop where
  fileName : m.fileName = saved.fileName
  fileHash : m.fileHash = saved.fileHash
  fileSize : m.fileSize = saved.fileSize
  partCount : m.partCount = saved.partCount
  range : ∀ i ∈ saved.indices, (m.parts i).range = (saved.parts i).range
  source : ∀ i ∈ saved.indices, (m.parts i).sourceIp = (saved.parts i).sourceIp ∧
    (m.parts i).sourcePort = (saved.parts i).sourcePort
  finished : ∀ i ∈ saved.indices, (m.parts i).finishedBytes =
    min ((s.content (saved.parts i).partFilePath).length : ℤ) (partTotalSize (saved.parts i))

variable {D : Download} {dir : Text} {plan : MultiGetsPlan} {m₀ m saved : MultipartTaskMeta}
  {s s' : State}

def plannedDownload (dir : Text) (plan : MultiGetsPlan) : Download :=
  ⟨dir,plan.fileHash,List.replicate plan.fileSize.toNat '\x00'⟩

theorem Announced.regular (h : Announced plan) : (plannedDownload dir plan).Regular where
  hash := h.hash.1
  length := h.hash.2
  size := by
    have hs := h.size
    unfold offMax at hs
    rw [plannedDownload,List.length_replicate]
    omega

theorem Announced.planFor (h : Announced plan) : PlanFor (plannedDownload dir plan) plan where
  fileSize := by
    have hs := h.size.1
    rw [plannedDownload,List.length_replicate]
    omega
  fileHash := rfl
  pos := h.pos
  bound := h.bound
  name := by
    have := h.name.2
    simp only [fileNameLen]
    omega
  ip := h.ip
  port := fun source hs => (h.port source hs).2

theorem newTask_paths (dir : Text) (h : Announced plan) :
    (newTask dir plan).taskDir = (plannedDownload dir plan).taskDir ∧
      (newTask dir plan).metaFilePath = (plannedDownload dir plan).metaFilePath := by
  have hh : plan.fileHash.take 64 = plan.fileHash := List.take_of_length_le (by rw [h.hash.2])
  simp only [newTask,hh]
  exact ⟨rfl,rfl⟩

theorem Progressed.roomy (h : Announced plan) (hp : Progressed dir plan m₀ m) :
    (plannedDownload dir plan).Roomy := by
  by_contra hr
  have hsplit := hp.split
  rw [initPartsFromPlan_eq (@Announced.planFor dir plan h)] at hsplit
  obtain ⟨_,hparts,_⟩ := initParts_parts _ _ (consecutive_sources plan.sources) hsplit
  have hbound := h.bound
  obtain ⟨path,hpath,_⟩ := hparts _ (mem_zip_sources plan.sources ⟨0,by decide⟩ h.pos)
  have hdir := (newTask_paths dir h).1
  rw [show ({ newTask dir plan with partCount := plan.sources.length } : MultipartTaskMeta).taskDir =
    (newTask dir plan).taskDir from rfl,hdir,part_path_long hr] at hpath
  cases hpath

theorem Progressed.planned (h : Announced plan) (hp : Progressed dir plan m₀ m) :
    Planned (plannedDownload dir plan) plan m ∧
      Divided (plannedDownload dir plan) plan.sources.length m := by
  have hh : plan.fileHash.take 64 = plan.fileHash := List.take_of_length_le (by rw [h.hash.2])
  have hn : plan.fileName.take (fileNameLen-1) = plan.fileName :=
    List.take_of_length_le (by have := h.name.2; simp only [fileNameLen]; omega)
  obtain ⟨hdir,hpath⟩ := newTask_paths dir h
  obtain ⟨hplanned,_⟩ := rebuilt_planned (@Announced.planFor dir plan h) hh
    (@Announced.planFor dir plan h).fileSize hdir hpath hn hp.split
  have hsame : SameTask m₀ m := ⟨hp.task,fun i => (hp.part i).imp fun _ hn => hn.1⟩
  refine ⟨hsame.planned hplanned,{ hsame.cut hplanned.cut with finished := fun i hi => ?_ }⟩
  obtain ⟨n,hpart,hn⟩ := hp.part i
  have ht := hplanned.cut.total hi
  rw [hpart,← ht]
  exact hn (hplanned.cut.mem.mpr hi)

theorem finishedOf_min {p : MultipartPartInfo} (hp : 0 ≤ partTotalSize p) (s : State)
    (path : Text) : finishedOf p ((s.files.lookup path).map fun f => (f.length : ℤ)) =
      min ((s.content path).length : ℤ) (partTotalSize p) := by
  unfold State.content
  cases s.files.lookup path with
  | none =>
    rw [Option.map_none,Option.getD_none,finishedOf,List.length_nil]
    omega
  | some f =>
    rw [Option.map_some,Option.getD_some,finishedOf]
    split <;> omega

def SameParts (D : Download) (s s' : State) : Prop :=
  ∀ i, s'.files.lookup (D.partPath i) = s.files.lookup (D.partPath i)

theorem sameParts_suits (D : Download) (s : State) : Suits D (SameParts D s) where
  enter := fun h _ => h
  save := fun h _ i => (AList.lookup_insert_ne (Download.partPath_ne_meta i)).trans (h i)
  print := fun _ h => h

theorem restored_of_synced {ok : Op → State → Choice → Prop} {plan : MultiGetsPlan}
    (hn : NoFault ok) (hsaved : Planned D plan saved) (hm : Planned D plan m)
    (hsame : SameParts D s s') (hs : Synced D ok plan.sources.length s' m) :
    Restored saved s m := by
  have hin : ∀ i ∈ saved.indices, i.val < plan.sources.length := fun i hi =>
    hsaved.cut.mem.mp hi
  have hrange : ∀ i ∈ saved.indices, (m.parts i).range = (saved.parts i).range := fun i hi =>
    (hm.cut.range i (hin i hi)).trans (hsaved.cut.range i (hin i hi)).symm
  refine
    { fileName := hm.fileName.trans hsaved.fileName.symm
      fileHash := hm.cut.hash.trans hsaved.cut.hash.symm
      fileSize := hm.cut.size.trans hsaved.cut.size.symm
      partCount := hm.cut.count.trans hsaved.cut.count.symm
      range := hrange
      source := fun i hi => ?_
      finished := fun i hi => ?_ }
  · obtain ⟨hip,hport⟩ := hm.source i (hin i hi)
    obtain ⟨hip',hport'⟩ := hsaved.source i (hin i hi)
    exact ⟨hip.trans hip'.symm,hport.trans hport'.symm⟩
  · have htotal := hm.cut.total (hin i hi)
    have hsize : partTotalSize (saved.parts i) = partTotalSize (m.parts i) := by
      rw [htotal,hsaved.cut.total (hin i hi)]
    rcases hs.counted i (hin i hi) with hc | ⟨_,hc⟩
    · rw [hc,finishedOf_min (by rw [htotal]; exact Int.natCast_nonneg _),hsize,
        hm.cut.path i (hin i hi),hsaved.cut.path i (hin i hi),State.content,State.content,hsame i]
    · exact absurd hn hc

end Plans

end Client

open Client

/-- However much of a saved `meta.ini` is left, preparing the download again
gives the saved task, counted anew. -/
theorem cut_meta_restored (dir : Text) (plan : MultiGetsPlan) (hplan : Announced plan)
    (m₀ saved : MultipartTaskMeta) (hsaved : Progressed dir plan m₀ saved) (t : Text)
    (ht : t <+: metaText saved) (s : State) (hs : s.files.lookup saved.metaFilePath = some t) :
    (∃ cs r s', client.Exec NoFailure () (prepareDownload dir plan) s cs r s') ∧
      ∀ cs r s', client.Exec NoFailure () (prepareDownload dir plan) s cs r s' →
        ∃ m, r = some m ∧ Restored saved s m := by
  constructor
  · obtain ⟨cs,r,s',hx⟩ := Machine.exec_total client_progress (prepareDownload dir plan) s
    exact ⟨cs,r,s',hx⟩
  · intro cs r s' hx
    obtain ⟨hplanned,hdiv⟩ := hsaved.planned hplan
    have hread : Readable (plannedDownload dir plan) plan s := by
      intro u hu
      rw [← hdiv.metaFilePath,hs] at hu
      obtain rfl := Option.some.inj hu
      exact cut_legible hplan.regular (fun source h => (hplan.port source h).1) hplan.pos hdiv
        (by rw [hplanned.fileName]; exact hplan.name) ht
    obtain ⟨hsame,hprepared,hnone⟩ := Machine.exec_always hx
      (holds_prepareDownload (sameParts_suits (plannedDownload dir plan) s) hplan.regular
        hplan.planFor (fun _ => rfl) hread)
    cases r with
    | none => exact absurd ⟨noFault_noFailure,hsaved.roomy hplan⟩ (hnone rfl)
    | some m =>
      obtain ⟨hm,hsync,_⟩ := hprepared m rfl
      exact ⟨m,rfl,restored_of_synced noFault_noFailure hplanned hm hsame hsync⟩

namespace CutMeta

def plan : MultiGetsPlan :=
  ⟨1,5,"a".toList,List.replicate 64 '0',
    [⟨"10.0.0.1".toList,"9090".toList⟩,⟨"10.0.0.2".toList,"9091".toList⟩],[]⟩

def saved : MultipartTaskMeta :=
  (initPartsFromPlan 5 plan (newTask "files".toList plan)).getD .zero

/-- `meta.ini` breaks off in the last port, and the first part is complete. -/
def begin : State :=
  { env := ⟨fun _ => plan,fun _ => ⟨1,[],[]⟩,fun _ _ _ => ⟨initFilePacket .gets [] 5 0 none,
      fun _ => []⟩,fun _ => []⟩
    files := ((∅ : AList fun _ : Text => Content).insert saved.metaFilePath
      ((metaText saved).take ((metaText saved).length-2))).insert (saved.parts ⟨0,by decide⟩).partFilePath
        "abc".toList
    dirs := [], asked := .command .gets [], address := ([],[])
    peer := ⟨initFilePacket .gets [] 5 0 none,fun _ => []⟩, stream := [], output := none
    input := none, printed := [] }

theorem announced : Announced plan where
  pos := by decide
  bound := by decide
  name := ⟨by decide,by decide⟩
  hash := by decide
  size := by decide
  ip := by decide
  port := by decide

theorem progressed : Progressed "files".toList plan saved saved where
  split := by
    have h : (initPartsFromPlan 5 plan (newTask "files".toList plan)).isSome = true := by
      decide +kernel
    obtain ⟨m,hm⟩ := Option.isSome_iff_exists.mp h
    rw [saved,hm]
    exact hm
  task := rfl
  part := by
    have h : ∀ i, 0 ≤ (saved.parts i).finishedBytes ∧
        (saved.parts i).finishedBytes ≤ partTotalSize (saved.parts i) := by decide +kernel
    exact fun i => ⟨(saved.parts i).finishedBytes,rfl,fun _ => h i⟩

theorem broken_off : begin.files.lookup saved.metaFilePath =
    some ((metaText saved).take ((metaText saved).length-2)) := by decide +kernel

end CutMeta

/-- Three bytes of the first part are found again behind a broken `meta.ini`. -/
theorem cut_port_restored : ∃ cs s' m,
    client.Exec NoFailure () (prepareDownload "files".toList CutMeta.plan) CutMeta.begin cs
        (some m) s' ∧ Restored CutMeta.saved CutMeta.begin m := by
  obtain ⟨⟨cs,r,s',hx⟩,h⟩ := cut_meta_restored "files".toList CutMeta.plan CutMeta.announced
    CutMeta.saved CutMeta.saved CutMeta.progressed _ (List.take_prefix _ _) CutMeta.begin
    CutMeta.broken_off
  obtain ⟨m,rfl,hm⟩ := h cs r s' hx
  exact ⟨cs,s',m,hx,hm⟩

end WindCloud
