import WindCloud.Client.MetaFile

/-!
# How a file is split

Part `i` of `n` starts behind the parts before it; the first parts take the
remainder. The loop of `init_parts_from_plan` computes these ranges, and the
slices they cut out of a content make it up again.
-/

set_option autoImplicit false

namespace WindCloud
open CString Effect Function

namespace Client

def partStart (size n i : ℕ) : ℕ := i*(size/n)+min i (size%n)

def partSize (size n i : ℕ) : ℕ := size/n+if i < size%n then 1 else 0

def slice (c : Content) (n i : ℕ) : Content :=
  (c.drop (partStart c.length n i)).take (partSize c.length n i)

section Arithmetic

variable {size n i : ℕ}

@[simp] theorem partStart_zero (size n : ℕ) : partStart size n 0 = 0 := by simp [partStart]

theorem partStart_succ (size n i : ℕ) :
    partStart size n (i+1) = partStart size n i+partSize size n i := by
  unfold partStart partSize
  rw [Nat.succ_mul]
  split <;> omega

theorem partStart_self (hn : 0 < n) : partStart size n n = size := by
  have hm := Nat.mod_lt size hn
  have hd := Nat.div_add_mod size n
  unfold partStart
  omega

theorem partStart_mono (size n : ℕ) {i j : ℕ} (h : i ≤ j) :
    partStart size n i ≤ partStart size n j := by
  induction h with
  | refl => exact le_rfl
  | step _ ih => exact ih.trans (by rw [partStart_succ]; omega)

theorem part_fits (size : ℕ) (hi : i < n) : partStart size n i+partSize size n i ≤ size := by
  have h := partStart_mono size n (Nat.succ_le_of_lt hi)
  rw [Nat.succ_eq_add_one,partStart_succ,partStart_self (by omega)] at h
  exact h

theorem parts_nonempty (hn : 0 < n) : (∀ i < n, 0 < partSize size n i) ↔ n ≤ size := by
  constructor
  · intro h
    by_contra hlt
    have hd : size/n = 0 := Nat.div_eq_of_lt (by omega)
    have hm : size%n = size := Nat.mod_eq_of_lt (by omega)
    have hs := h size (by omega)
    simp [partSize,hd,hm] at hs
  · intro h i _
    have hd := Nat.div_pos h hn
    unfold partSize
    omega

theorem slice_length (c : Content) (hi : i < n) : (slice c n i).length = partSize c.length n i := by
  have hf := part_fits c.length hi
  rw [slice,List.length_take,List.length_drop]
  omega

end Arithmetic

section Loop

/-- The pairs carry the indices from `k` on. -/
def Consecutive : ℕ → List (PartIndex × SourceServer) → Prop
  | _, [] => True
  | k, (i,_)::rest => i.val = k ∧ Consecutive (k+1) rest

theorem consecutive_zip (is : List PartIndex) (sources : List SourceServer) (k : ℕ)
    (h : ∀ j (hj : j < is.length), is[j].val = k+j) : Consecutive k (is.zip sources) := by
  induction is generalizing sources k with
  | nil => trivial
  | cons i is ih =>
    cases sources with
    | nil => trivial
    | cons source sources =>
      refine ⟨h 0 (by simp),ih sources (k+1) fun j hj => ?_⟩
      have hs := h (j+1) (by simpa using hj)
      simp only [List.getElem_cons_succ] at hs
      omega

theorem consecutive_sources (sources : List SourceServer) :
    Consecutive 0 ((List.finRange maxSourceServerCount).zip sources) :=
  consecutive_zip _ _ _ fun j hj => by simp

def partInfo (size n : ℕ) (i : PartIndex) (source : SourceServer) (path : Text) :
    MultipartPartInfo where
  partIndex := i.val
  rangeStart := partStart size n i.val
  rangeEnd := partStart size n i.val+partSize size n i.val-1
  finishedBytes := 0
  sourceIp := source.ip.take 63
  sourcePort := source.port.take 15
  partFilePath := path

theorem initParts_step (size n : ℕ) {i : PartIndex} (source : SourceServer)
    (rest : List (PartIndex × SourceServer)) (m : MultipartTaskMeta) {path : Text}
    (hp : buildPartFilePath m.taskDir i.val maxPathLen = some path) :
    initParts ((size/n : ℕ) : ℤ) ((i,source)::rest) ((size%n-i.val : ℕ) : ℤ)
        (partStart size n i.val) m =
      initParts ((size/n : ℕ) : ℤ) rest ((size%n-(i.val+1) : ℕ) : ℤ)
        (partStart size n (i.val+1)) (m.setPart i (partInfo size n i source path)) := by
  have hs := partStart_succ size n i.val
  rw [initParts,hp]
  dsimp only
  by_cases hr : i.val < size%n
  · have hz : partSize size n i.val = size/n+1 := by simp [partSize,hr]
    have h1 : ((size%n-i.val : ℕ) : ℤ)-1 = ((size%n-(i.val+1) : ℕ) : ℤ) := by omega
    have h2 : (partStart size n i.val : ℤ)+((size/n : ℕ) : ℤ)+1 = partStart size n (i.val+1) := by
      omega
    have h3 : (partStart size n i.val : ℤ)+(((size/n : ℕ) : ℤ)+1)-1 =
        partStart size n i.val+partSize size n i.val-1 := by omega
    rw [if_pos (by omega),h1,h2,h3]
    rfl
  · have hz : partSize size n i.val = size/n := by simp [partSize,hr]
    have h1 : ((size%n-i.val : ℕ) : ℤ) = ((size%n-(i.val+1) : ℕ) : ℤ) := by omega
    have h2 : (partStart size n i.val : ℤ)+((size/n : ℕ) : ℤ) = partStart size n (i.val+1) := by
      omega
    have h3 : (partStart size n (i.val+1) : ℤ)-1 =
        partStart size n i.val+partSize size n i.val-1 := by omega
    rw [if_neg (by omega),h2,h3,h1]
    rfl

theorem initParts_parts (size n : ℕ) {k : ℕ} {l : List (PartIndex × SourceServer)}
    (hl : Consecutive k l) {m m' : MultipartTaskMeta}
    (h : initParts ((size/n : ℕ) : ℤ) l ((size%n-k : ℕ) : ℤ) (partStart size n k) m = some m') :
    m' = { m with parts := m'.parts } ∧
      (∀ e ∈ l, ∃ path, buildPartFilePath m.taskDir e.1.val maxPathLen = some path ∧
        m'.parts e.1 = partInfo size n e.1 e.2 path) ∧
      ∀ i : PartIndex, i.val < k → m'.parts i = m.parts i := by
  induction l generalizing k m with
  | nil =>
    obtain rfl := Option.some.inj h
    exact ⟨rfl,by simp,fun _ _ => rfl⟩
  | cons e l ih =>
    obtain ⟨i,source⟩ := e
    obtain ⟨rfl,hrest⟩ := hl
    cases hp : buildPartFilePath m.taskDir i.val maxPathLen with
    | none =>
      rw [initParts,hp] at h
      cases h
    | some path =>
      rw [initParts_step size n source l m hp] at h
      obtain ⟨hsame,hparts,hkeep⟩ := ih hrest h
      refine ⟨hsame,?_,fun j hj => ?_⟩
      · intro e he
        rcases List.mem_cons.mp he with rfl | he
        · exact ⟨path,hp,(hkeep i (by omega)).trans (setPart_self _ _ _)⟩
        · exact hparts e he
      · rw [hkeep j (by omega),setPart_other]
        rintro rfl
        omega

theorem mem_zip_sources (sources : List SourceServer) (i : PartIndex) (h : i.val < sources.length) :
    (i,sources[i.val]) ∈ (List.finRange maxSourceServerCount).zip sources := by
  refine List.mem_iff_getElem.mpr ⟨i.val,?_,?_⟩
  · rw [List.length_zip,List.length_finRange]
    have := i.isLt
    omega
  · rw [List.getElem_zip]
    congr 1
    simp

theorem initPartsFromPlan_loop {plan : MultiGetsPlan} (hpos : 0 < plan.sources.length)
    (hbound : plan.sources.length ≤ maxSourceServerCount) (size : ℕ) (m : MultipartTaskMeta) :
    initPartsFromPlan size plan m =
      initParts ((size/plan.sources.length : ℕ) : ℤ)
        ((List.finRange maxSourceServerCount).zip plan.sources)
        ((size%plan.sources.length-0 : ℕ) : ℤ) (partStart size plan.sources.length 0)
        { m with partCount := plan.sources.length } := by
  rw [initPartsFromPlan,if_neg (by omega)]
  simp

theorem indices_val {m : MultipartTaskMeta} {n : ℕ} (hm : m.partCount = n)
    (hn : n ≤ maxSourceServerCount) : m.indices.map Fin.val = List.range n := by
  have h : ∀ n ≤ maxSourceServerCount,
      ((List.finRange maxSourceServerCount).filter fun i => (i.val : ℤ) < (n : ℤ)).map Fin.val =
        List.range n := by decide
  rw [MultipartTaskMeta.indices,hm]
  exact h n hn

end Loop

end Client

end WindCloud
