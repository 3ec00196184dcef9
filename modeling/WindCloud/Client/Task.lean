import WindCloud.Client.Gets
import WindCloud.Client.Split
import WindCloud.Lib.Hex

/-!
# The task directory as an invariant

What every file of the task directory of one content holds while the directory
is used: `meta.ini` is a saved division of the content, and `part_i` is the
beginning of the part it was last filled as.
-/

set_option autoImplicit false

namespace WindCloud
open CString Effect Function

namespace Client

structure Download where
  dir : Text
  hash : Text
  content : Content

namespace Download

variable (D : Download)

def taskDir : Text := multipartRoot D.dir ++ '/'::D.hash

def metaFilePath : Text := D.taskDir ++ "/meta.ini".toList

def partPath (i : PartIndex) : Text := D.taskDir ++ "/part_".toList ++ decimal i.val

def Below (path : Text) : Prop := D.taskDir ++ ['/'] <+: path

variable {D}

theorem partPath_injective {i j : PartIndex} (h : D.partPath i = D.partPath j) : i = j := by
  have hd := List.append_cancel_left h
  have hi := congrArg atoll hd
  rw [atoll_decimal,atoll_decimal] at hi
  exact Fin.ext (by omega)

theorem partPath_ne_meta (i : PartIndex) : D.partPath i ≠ D.metaFilePath := by
  intro h
  rw [partPath,metaFilePath,List.append_assoc] at h
  have ht := List.append_cancel_left h
  cases ht

theorem below_meta : D.Below D.metaFilePath := by
  refine ⟨"meta.ini".toList,?_⟩
  rw [metaFilePath,List.append_assoc]
  rfl

theorem below_part (i : PartIndex) : D.Below (D.partPath i) := by
  refine ⟨"part_".toList ++ decimal i.val,?_⟩
  rw [partPath,List.append_assoc,List.append_assoc]
  rfl

theorem not_below_local {arg : Text} (h : '/' ∉ arg) : ¬ D.Below (D.dir ++ '/'::arg) := by
  rintro ⟨t,ht⟩
  rw [taskDir,multipartRoot,List.append_assoc,List.append_assoc,List.append_assoc] at ht
  have he := List.append_cancel_left ht
  have ha : ".multipart".toList ++ '/'::D.hash ++ ['/'] ++ t = arg := by
    have hc := List.cons.inj (show '/'::(".multipart".toList ++ '/'::D.hash ++ ['/'] ++ t) =
      '/'::arg by simpa using he)
    exact hc.2
  exact h (by rw [← ha]; simp)

theorem not_below_short {path : Text} (h : path.length ≤ D.taskDir.length) : ¬ D.Below path := by
  intro hb
  have := hb.length_le
  rw [List.length_append,List.length_singleton] at this
  omega

end Download

variable {D : Download}

/-- The ranges and files of the task in memory are those of `n` parts of the content. -/
structure Cut (D : Download) (n : ℕ) (m : MultipartTaskMeta) : Prop where
  pos : 0 < n
  bound : n ≤ maxSourceServerCount
  count : m.partCount = n
  hash : m.fileHash = D.hash
  size : m.fileSize = D.content.length
  taskDir : m.taskDir = D.taskDir
  metaFilePath : m.metaFilePath = D.metaFilePath
  range : ∀ i : PartIndex, i.val < n → (m.parts i).range =
    ((partStart D.content.length n i.val : ℤ),
      (partStart D.content.length n i.val : ℤ)+partSize D.content.length n i.val-1)
  path : ∀ i : PartIndex, i.val < n → (m.parts i).partFilePath = D.partPath i
  source : ∀ i : PartIndex, i.val < n → Fits (m.parts i).sourceIp ∧ Fits (m.parts i).sourcePort

/-- The task in memory divides the content into `n` parts, with no more
progress than there is to make. -/
structure Divided (D : Download) (n : ℕ) (m : MultipartTaskMeta) : Prop extends Cut D n m where
  finished : ∀ i : PartIndex, i.val < n → 0 ≤ (m.parts i).finishedBytes ∧
    (m.parts i).finishedBytes ≤ partSize D.content.length n i.val

/-- The hash is one, and the content fits into a file. -/
structure Download.Valid (D : Download) : Prop where
  hash : Hex.IsHash D.hash
  size : D.content.length < 9223372036854775808

/-- The hash fills its field without a line end in it, and the content fits into a file. -/
structure Download.Regular (D : Download) : Prop where
  hash : '\n' ∉ D.hash
  length : D.hash.length = 64
  size : D.content.length < 9223372036854775808

/-- The paths of the task directory fit into their buffers. -/
def Download.Roomy (D : Download) : Prop := D.taskDir.length+16 < maxPathLen

instance : Decidable D.Roomy := inferInstanceAs (Decidable (_ < _))

theorem mem_indices {m : MultipartTaskMeta} {i : PartIndex} :
    i ∈ m.indices ↔ (i.val : ℤ) < m.partCount := by
  simp [MultipartTaskMeta.indices]

theorem Cut.mem {n : ℕ} {m : MultipartTaskMeta} (h : Cut D n m) {i : PartIndex} :
    i ∈ m.indices ↔ i.val < n := by
  rw [mem_indices,h.count]
  omega

theorem Cut.total {n : ℕ} {m : MultipartTaskMeta} (h : Cut D n m) {i : PartIndex}
    (hi : i.val < n) : partTotalSize (m.parts i) = partSize D.content.length n i.val := by
  have hr := h.range i hi
  simp only [MultipartPartInfo.range,Prod.mk.injEq] at hr
  unfold partTotalSize
  omega

theorem digits_no_newline : '\n' ∉ Hex.digits := by decide

theorem Download.Valid.regular (h : D.Valid) : D.Regular where
  hash := fun hm => digits_no_newline (h.hash.lower _ hm)
  length := h.hash.length
  size := h.size

theorem Divided.printable (hD : D.Regular) {n : ℕ} {m : MultipartTaskMeta} (h : Divided D n m) :
    Printable m where
  hash := by
    rw [h.hash]
    refine ⟨hD.hash,?_⟩
    rw [hD.length]
    decide
  size := by
    have := hD.size
    exact decimal_fits (by rw [h.size]; omega)
  count := by
    have := h.bound
    exact decimal_fits (by rw [h.count]; simp only [maxSourceServerCount] at this; omega)
  parts := by
    intro i hi
    have hin := h.mem.mp hi
    have hr := h.range i hin
    simp only [MultipartPartInfo.range,Prod.mk.injEq] at hr
    have hf := h.finished i hin
    have hfit := part_fits D.content.length hin
    have hs := hD.size
    exact ⟨decimal_fits (by omega),decimal_fits (by omega),decimal_fits (by omega),h.source i hin⟩

/-- The invariant of the task directory: part `i` exists only where `allowed`,
and is filled as part `i` of `origin i`. -/
structure Kept (D : Download) (origin : PartIndex → ℕ) (allowed : PartIndex → Prop)
    (env : Environment) (s : State) : Prop where
  env : s.env = env
  parts : ∀ i f, s.files.lookup (D.partPath i) = some f →
    allowed i ∧ f <+: slice D.content (origin i) i.val
  saved : ∀ t, s.files.lookup D.metaFilePath = some t → ∃ n m, Divided D n m ∧ t = metaText m
  files : ∀ path f, s.files.lookup path = some f → D.Below path →
    path = D.metaFilePath ∨ ∃ i, path = D.partPath i
  dirs : ∀ path ∈ s.dirs, ¬ D.Below path

structure Fresh (D : Download) (s : State) : Prop where
  files : ∀ p, D.Below p → s.files.lookup p = none
  dirs : ∀ p ∈ s.dirs, ¬ D.Below p

section Kept

variable {origin : PartIndex → ℕ} {allowed : PartIndex → Prop} {env : Environment} {s s' : State}

theorem kept_same (h : Kept D origin allowed env s) (he : s'.env = s.env)
    (hf : s'.files = s.files) (hd : ∀ path ∈ s'.dirs, path ∈ s.dirs ∨ ¬ D.Below path) :
    Kept D origin allowed env s' where
  env := he.trans h.env
  parts := by rw [hf]; exact h.parts
  saved := by rw [hf]; exact h.saved
  files := by rw [hf]; exact h.files
  dirs := fun path hp => (hd path hp).elim (h.dirs path) id

theorem kept_put_meta (h : Kept D origin allowed env s) {n : ℕ} {m : MultipartTaskMeta}
    (hm : Divided D n m) (he : s'.env = s.env) (hd : s'.dirs = s.dirs)
    (hf : s'.files = s.files.insert D.metaFilePath (metaText m)) :
    Kept D origin allowed env s' where
  env := he.trans h.env
  parts := by
    intro i f hl
    rw [hf,AList.lookup_insert_ne (Download.partPath_ne_meta i)] at hl
    exact h.parts i f hl
  saved := by
    intro t ht
    rw [hf,AList.lookup_insert] at ht
    exact ⟨n,m,hm,(Option.some.inj ht).symm⟩
  files := by
    intro path f hl hb
    by_cases hp : path = D.metaFilePath
    · exact .inl hp
    · rw [hf,AList.lookup_insert_ne hp] at hl
      exact h.files path f hl hb
  dirs := by rw [hd]; exact h.dirs

theorem kept_put_part (h : Kept D origin allowed env s) {i : PartIndex} {f : Content}
    (ha : allowed i) (hp : f <+: slice D.content (origin i) i.val) (he : s'.env = s.env)
    (hd : s'.dirs = s.dirs) (hf : s'.files = s.files.insert (D.partPath i) f) :
    Kept D origin allowed env s' where
  env := he.trans h.env
  parts := by
    intro j g hl
    by_cases hji : j = i
    · subst hji
      rw [hf,AList.lookup_insert] at hl
      obtain rfl := Option.some.inj hl
      exact ⟨ha,hp⟩
    · rw [hf,AList.lookup_insert_ne (fun hc => hji (Download.partPath_injective hc))] at hl
      exact h.parts j g hl
  saved := by
    intro t ht
    rw [hf,AList.lookup_insert_ne (Download.partPath_ne_meta i).symm] at ht
    exact h.saved t ht
  files := by
    intro path g hl hb
    by_cases hpath : path = D.partPath i
    · exact .inr ⟨i,hpath⟩
    · rw [hf,AList.lookup_insert_ne hpath] at hl
      exact h.files path g hl hb
  dirs := by rw [hd]; exact h.dirs

theorem kept_put_local (h : Kept D origin allowed env s) {path : Text} {f : Content}
    (hn : ¬ D.Below path) (he : s'.env = s.env) (hd : s'.dirs = s.dirs)
    (hf : s'.files = s.files.insert path f) : Kept D origin allowed env s' where
  env := he.trans h.env
  parts := by
    intro i g hl
    rw [hf,AList.lookup_insert_ne] at hl
    · exact h.parts i g hl
    · rintro rfl
      exact hn (Download.below_part i)
  saved := by
    intro t ht
    rw [hf,AList.lookup_insert_ne] at ht
    · exact h.saved t ht
    · rintro rfl
      exact hn Download.below_meta
  files := by
    intro p g hl hb
    rw [hf,AList.lookup_insert_ne] at hl
    · exact h.files p g hl hb
    · rintro rfl
      exact hn hb
  dirs := by rw [hd]; exact h.dirs

theorem kept_erase (h : Kept D origin allowed env s) {path : Text} (he : s'.env = s.env)
    (hd : s'.dirs = s.dirs) (hf : s'.files = s.files.erase path) :
    Kept D origin allowed env s' := by
  have hsub : ∀ p f, s'.files.lookup p = some f → s.files.lookup p = some f := by
    intro p f hl
    rw [hf] at hl
    by_cases hp : p = path
    · subst hp
      rw [AList.lookup_erase] at hl
      cases hl
    · rwa [AList.lookup_erase_ne hp] at hl
  exact
    { env := he.trans h.env
      parts := fun i f hl => h.parts i f (hsub _ f hl)
      saved := fun t ht => h.saved t (hsub _ t ht)
      files := fun p f hl => h.files p f (hsub p f hl)
      dirs := by rw [hd]; exact h.dirs }

theorem kept_fresh (h : Fresh D s) : Kept D origin allowed s.env s where
  env := rfl
  parts := fun i f hl => by
    rw [h.files _ (Download.below_part i)] at hl
    cases hl
  saved := fun t ht => by
    rw [h.files _ Download.below_meta] at ht
    cases ht
  files := fun p f hl hb => by
    rw [h.files p hb] at hl
    cases hl
  dirs := h.dirs

end Kept

end Client

end WindCloud
