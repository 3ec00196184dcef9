import WindCloud.Client.Meta

/-!
# Reading back `meta.ini`

Whatever the file name in its first line, a written task is read back with its
number of parts and their ranges. No two of the keys of part lines are the
beginning of one another, so that every line reaches one field of one part.
-/

set_option autoImplicit false

namespace WindCloud
open CString Effect Function

namespace Client

section Keys

def fields : List String := ["_start=","_end=","_finished=","_ip=","_port="]

theorem partKey_eq (i : PartIndex) (f : String) :
    partKey i f = "part_".toList ++ Nat.digitChar i.val::f.toList := by
  have hd : ∀ j : PartIndex, decimal j.val = [Nat.digitChar j.val] := by decide
  rw [partKey,hd i,List.append_assoc,List.singleton_append]

theorem digitChar_part {i j : PartIndex} (h : Nat.digitChar i.val = Nat.digitChar j.val) :
    i = j := by
  revert i j
  decide

theorem fields_apart : ∀ f ∈ fields, ∀ g ∈ fields, f.toList <+: g.toList → f = g := by
  decide

theorem partKey_isPrefixOf {i j : PartIndex} {f g : String} (hf : f ∈ fields) (hg : g ∈ fields)
    {v : Text} (h : (partKey i f).isPrefixOf (partKey j g ++ v) = true) : i = j ∧ f = g := by
  rw [List.isPrefixOf_iff_prefix,partKey_eq,partKey_eq,List.append_assoc,
    List.prefix_append_right_inj,List.cons_append,List.cons_prefix_cons] at h
  obtain ⟨hd,hp⟩ := h
  refine ⟨digitChar_part hd,?_⟩
  rcases List.prefix_or_prefix_of_prefix hp (List.prefix_append g.toList v) with hfg | hgf
  · exact fields_apart f hf g hg hfg
  · exact (fields_apart g hg f hf hgf).symm

theorem partKey_header (j : PartIndex) (g : String) (v : Text) :
    "file_name=".toList.isPrefixOf (partKey j g ++ v) = false ∧
      "file_hash=".toList.isPrefixOf (partKey j g ++ v) = false ∧
      "file_size=".toList.isPrefixOf (partKey j g ++ v) = false ∧
      "part_count=".toList.isPrefixOf (partKey j g ++ v) = false := by
  have hd : ∀ i : PartIndex, Nat.digitChar i.val ≠ 'c' := by decide
  rw [partKey_eq]
  refine ⟨rfl,rfl,rfl,?_⟩
  by_contra h
  have hp : "part_".toList ++ 'c'::"ount=".toList <+:
      "part_".toList ++ Nat.digitChar j.val::g.toList ++ v :=
    List.isPrefixOf_iff_prefix.mp (by simpa using h)
  rw [List.append_assoc,List.prefix_append_right_inj,List.cons_append,List.cons_prefix_cons] at hp
  exact hd j hp.1.symm

end Keys

section Lines

variable {m : MultipartTaskMeta} {j : PartIndex} {g : String} {v : Text}

theorem parseString_other {l key : Text} (h : key.isPrefixOf l = false) (size : ℕ) (out : Text) :
    parseMetaStringLine l key size out = (false,out) := by
  simp [parseMetaStringLine,h]

theorem parseOffset_other {l key : Text} (h : key.isPrefixOf l = false) :
    parseMetaOffsetLine l key = none := by
  simp [parseMetaOffsetLine,h]

theorem parseOffset_self (key v : Text) :
    parseMetaOffsetLine (key ++ v) key = some (atoll v) := by
  simp [parseMetaOffsetLine]

theorem loadPartLine_other {i : PartIndex} (hg : g ∈ fields) (hij : i ≠ j)
    (p : MultipartPartInfo) : loadPartLine (partKey j g ++ v) i p = (false,p) := by
  have hn : ∀ f ∈ fields, (partKey i f).isPrefixOf (partKey j g ++ v) = false := by
    intro f hf
    by_contra h
    exact hij (partKey_isPrefixOf hf hg (by simpa using h)).1
  rw [loadPartLine,parseOffset_other (hn _ (by decide)),parseOffset_other (hn _ (by decide)),
    parseOffset_other (hn _ (by decide)),parseString_other (hn _ (by decide)),
    parseString_other (hn _ (by decide))]

theorem loadParts_other (hg : g ∈ fields) {is : List PartIndex} (hj : j ∉ is)
    (m : MultipartTaskMeta) : loadParts (partKey j g ++ v) is m = m := by
  induction is with
  | nil => rfl
  | cons i is ih =>
    have hij : i ≠ j := fun h => hj (by simp [h])
    rw [loadParts,loadPartLine_other hg hij,if_neg (by simp)]
    rw [show m.setPart i (m.parts i) = m from by simp [MultipartTaskMeta.setPart]]
    exact ih fun h => hj (by simp [h])

theorem loadParts_self (hg : g ∈ fields) {is : List PartIndex} (hn : is.Nodup) (hj : j ∈ is)
    (m : MultipartTaskMeta) : loadParts (partKey j g ++ v) is m =
      m.setPart j (loadPartLine (partKey j g ++ v) j (m.parts j)).2 := by
  induction is with
  | nil => cases hj
  | cons i is ih =>
    obtain ⟨hi,hn⟩ := List.nodup_cons.mp hn
    by_cases hij : i = j
    · subst hij
      rw [loadParts,loadParts_other hg hi,ite_self]
    · rw [loadParts,loadPartLine_other hg hij,if_neg (by simp)]
      rw [show m.setPart i (m.parts i) = m from by simp [MultipartTaskMeta.setPart]]
      exact ih hn ((List.mem_cons.mp hj).resolve_left (Ne.symm hij))

theorem loadLine_part (hg : g ∈ fields) : loadLine m (partKey j g ++ v) =
    m.setPart j (loadPartLine (partKey j g ++ v) j (m.parts j)).2 := by
  obtain ⟨h1,h2,h3,h4⟩ := partKey_header j g v
  simp only [loadLine,parseString_other h1,parseString_other h2,parseOffset_other h3,h4,
    Bool.false_eq_true,if_false]
  exact loadParts_self hg (List.nodup_finRange _) (List.mem_finRange j) m

theorem loadLine_count (n : ℤ) :
    (loadLine m (line ("part_count=".toList ++ decimal n))).partCount = n := by
  have hp : "part_count=".toList.isPrefixOf (line ("part_count=".toList ++ decimal n)) = true :=
    rfl
  have h1 : "file_name=".toList.isPrefixOf (line ("part_count=".toList ++ decimal n)) = false :=
    rfl
  have h2 : "file_hash=".toList.isPrefixOf (line ("part_count=".toList ++ decimal n)) = false :=
    rfl
  have h3 : "file_size=".toList.isPrefixOf (line ("part_count=".toList ++ decimal n)) = false :=
    rfl
  have hd : (line ("part_count=".toList ++ decimal n)).drop 11 = decimal n ++ ['\n'] := rfl
  simp only [loadLine,parseString_other h1,parseString_other h2,parseOffset_other h3,hp,if_true,hd]
  exact atoll_decimal_append n (by simp)

end Lines

section RoundTrip

def MultipartPartInfo.range (p : MultipartPartInfo) : ℤ × ℤ := (p.rangeStart,p.rangeEnd)

theorem field_apart {i : PartIndex} {f g : String} (hf : f ∈ fields) (hg : g ∈ fields)
    (hne : f ≠ g) (v : Text) : (partKey i f).isPrefixOf (partKey i g ++ v) = false := by
  by_contra h
  exact hne (partKey_isPrefixOf hf hg (by simpa using h)).2

theorem loadPartLine_start (i : PartIndex) (p : MultipartPartInfo) (v : Text) :
    (loadPartLine (partKey i "_start=" ++ v) i p).2.range = (atoll v,p.rangeEnd) := by
  rw [loadPartLine,parseOffset_self]
  rfl

theorem loadPartLine_end (i : PartIndex) (p : MultipartPartInfo) (v : Text) :
    (loadPartLine (partKey i "_end=" ++ v) i p).2.range = (p.rangeStart,atoll v) := by
  rw [loadPartLine,parseOffset_other (field_apart (by decide) (by decide) (by decide) v),
    parseOffset_self]
  rfl

theorem loadPartLine_rest {g : String} (hg : g ∈ ["_finished=","_ip=","_port="]) (i : PartIndex)
    (p : MultipartPartInfo) (v : Text) :
    (loadPartLine (partKey i g ++ v) i p).2.range = p.range := by
  have hmem : g ∈ fields ∧ "_start=" ≠ g ∧ "_end=" ≠ g := by
    revert g
    decide
  rw [loadPartLine,parseOffset_other (field_apart (by decide) hmem.1 hmem.2.1 v),
    parseOffset_other (field_apart (by decide) hmem.1 hmem.2.2 v)]
  dsimp only
  split
  · rfl
  · split
    · rfl
    · split <;> rfl

@[simp] theorem setPart_self (m : MultipartTaskMeta) (i : PartIndex) (p : MultipartPartInfo) :
    (m.setPart i p).parts i = p := update_self _ _ _

@[simp] theorem setPart_other (m : MultipartTaskMeta) {i j : PartIndex} (p : MultipartPartInfo)
    (h : j ≠ i) : (m.setPart i p).parts j = m.parts j := update_of_ne h _ _

@[simp] theorem setPart_count (m : MultipartTaskMeta) (i : PartIndex) (p : MultipartPartInfo) :
    (m.setPart i p).partCount = m.partCount := rfl

theorem setPart_setPart (m : MultipartTaskMeta) (i : PartIndex) (p q : MultipartPartInfo) :
    (m.setPart i p).setPart i q = m.setPart i q := by
  simp [MultipartTaskMeta.setPart]

theorem load_partLines (m : MultipartTaskMeta) (i : PartIndex) (p : MultipartPartInfo) :
    ∃ q, ((partLines i p).map line).foldl loadLine m = m.setPart i q ∧ q.range = p.range := by
  have hstart := atoll_decimal_append p.rangeStart (t := ['\n']) (by simp)
  have hend := atoll_decimal_append p.rangeEnd (t := ['\n']) (by simp)
  simp only [partLines,line,List.append_assoc,List.map_cons,List.map_nil,List.foldl_cons,
    List.foldl_nil]
  rw [loadLine_part (g := "_start=") (by decide),loadLine_part (g := "_end=") (by decide),
    loadLine_part (g := "_finished=") (by decide),loadLine_part (g := "_ip=") (by decide),
    loadLine_part (g := "_port=") (by decide)]
  simp only [setPart_setPart,setPart_self]
  refine ⟨_,rfl,?_⟩
  rw [loadPartLine_rest (by decide),loadPartLine_rest (by decide),loadPartLine_rest (by decide),
    loadPartLine_end,hend]
  have h := loadPartLine_start i (m.parts i) (decimal p.rangeStart ++ ['\n'])
  rw [hstart] at h
  exact congrArg (fun r : ℤ × ℤ => (r.1,p.rangeEnd)) h

theorem load_allParts (saved : PartIndex → MultipartPartInfo) (is : List PartIndex)
    (m : MultipartTaskMeta) :
    (((is.flatMap fun i => partLines i (saved i)).map line).foldl loadLine m).partCount =
        m.partCount ∧
      (∀ i ∈ is, ((((is.flatMap fun i => partLines i (saved i)).map line).foldl loadLine m).parts
        i).range = (saved i).range) ∧
      ∀ i ∉ is, ((((is.flatMap fun i => partLines i (saved i)).map line).foldl loadLine m).parts
        i).range = (m.parts i).range := by
  induction is generalizing m with
  | nil => simp
  | cons i is ih =>
    obtain ⟨q,hq,hr⟩ := load_partLines m i (saved i)
    rw [List.flatMap_cons,List.map_append,List.foldl_append,hq]
    obtain ⟨hc,hin,hout⟩ := ih (m.setPart i q)
    refine ⟨hc,fun j hj => ?_,fun j hj => ?_⟩
    · by_cases hjs : j ∈ is
      · exact hin j hjs
      · obtain rfl := (List.mem_cons.mp hj).resolve_right hjs
        rw [hout j hjs,setPart_self,hr]
    · have hji : j ≠ i := fun hc => hj (by simp [hc])
      rw [hout j fun hc => hj (by simp [hc]),setPart_other _ _ hji]

/-- A text that fits into a line of `meta.ini` behind any key. -/
def Fits (t : Text) : Prop := '\n' ∉ t ∧ t.length ≤ 200

structure Printable (m : MultipartTaskMeta) : Prop where
  hash : Fits m.fileHash
  size : Fits (decimal m.fileSize)
  count : Fits (decimal m.partCount)
  parts : ∀ i ∈ m.indices, Fits (decimal (m.parts i).rangeStart) ∧
    Fits (decimal (m.parts i).rangeEnd) ∧ Fits (decimal (m.parts i).finishedBytes) ∧
    Fits (m.parts i).sourceIp ∧ Fits (m.parts i).sourcePort

theorem decimal_fits {n : ℤ} (h : n.natAbs < 100000000000000000000) : Fits (decimal n) := by
  have hl : (Nat.toDigits 10 n.natAbs).length ≤ 20 :=
    (Nat.length_toDigits_le_iff (by decide) (by decide)).mpr (by omega)
  have hd := digits_isDigit n.natAbs
  have hn : '\n' ∉ Nat.toDigits 10 n.natAbs := fun hm => absurd (hd _ hm) (by decide)
  unfold decimal
  split
  · exact ⟨by simp [hn],by simp only [List.length_cons]; omega⟩
  · exact ⟨hn,by omega⟩

theorem key_line {key t : Text} (hk : '\n' ∉ key ∧ key.length ≤ 20) (ht : Fits t) :
    '\n' ∉ key ++ t ∧ (key ++ t).length+1 < 256 := by
  refine ⟨by simp [hk.1,ht.1],?_⟩
  have := ht.2
  rw [List.length_append]
  omega

theorem partKey_line (i : PartIndex) {f : String} (hf : f ∈ fields) :
    '\n' ∉ partKey i f ∧ (partKey i f).length ≤ 20 := by
  have h : ∀ i : PartIndex, ∀ f ∈ fields, '\n' ∉ partKey i f ∧ (partKey i f).length ≤ 20 := by
    decide
  exact h i f hf

theorem metaLines_fit {m : MultipartTaskMeta} (hm : Printable m) :
    ∀ l ∈ metaLines m, '\n' ∉ l ∧ l.length+1 < 256 := by
  intro l hl
  rcases List.mem_append.mp hl with hl | hl
  · simp only [List.mem_cons,List.not_mem_nil,or_false] at hl
    rcases hl with rfl | rfl | rfl
    · exact key_line (by decide) hm.hash
    · exact key_line (by decide) hm.size
    · exact key_line (by decide) hm.count
  · obtain ⟨i,hi,hl⟩ := List.mem_flatMap.mp hl
    obtain ⟨h1,h2,h3,h4,h5⟩ := hm.parts i hi
    simp only [partLines,List.mem_cons,List.not_mem_nil,or_false] at hl
    rcases hl with rfl | rfl | rfl | rfl | rfl
    · exact key_line (partKey_line i (by decide)) h1
    · exact key_line (partKey_line i (by decide)) h2
    · exact key_line (partKey_line i (by decide)) h3
    · exact key_line (partKey_line i (by decide)) h4
    · exact key_line (partKey_line i (by decide)) h5

/-- A saved task is loaded with its number of parts and their ranges. -/
theorem load_metaText {m : MultipartTaskMeta} (hm : Printable m) (m₀ : MultipartTaskMeta) :
    (loadMetaText m₀ (metaText m)).partCount = m.partCount ∧
      ∀ i ∈ m.indices, ((loadMetaText m₀ (metaText m)).parts i).range = (m.parts i).range := by
  obtain ⟨ls,hls⟩ := fgetsLines_append 256 ("file_name=".toList ++ m.fileName)
    ((metaLines m).flatMap line)
  have hlines : fgetsLines 256 (metaText m) = ls ++ (metaLines m).map line := by
    rw [metaText,hls,fgetsLines_flatMap _ (metaLines_fit hm)]
  rw [loadMetaText,hlines,List.foldl_append,metaLines,List.map_append,List.foldl_append]
  simp only [List.map_cons,List.map_nil,List.foldl_cons,List.foldl_nil]
  obtain ⟨hc,hp,_⟩ := load_allParts m.parts m.indices
    (loadLine (loadLine (loadLine (ls.foldl loadLine m₀) (line ("file_hash=".toList ++ m.fileHash)))
      (line ("file_size=".toList ++ decimal m.fileSize)))
      (line ("part_count=".toList ++ decimal m.partCount)))
  refine ⟨hc.trans (loadLine_count _),fun i hi => ?_⟩
  exact hp i hi

end RoundTrip

end Client

end WindCloud
