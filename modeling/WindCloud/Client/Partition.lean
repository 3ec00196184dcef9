import Mathlib.Logic.ExistsUnique
import WindCloud.Client.Split

/-!
# The ranges of a plan

The loop of `init_parts_from_plan` once more, with every sum and difference
checked to be an `off_t`. No check fails, and the ranges partition the file.
-/

set_option autoImplicit false

namespace WindCloud
open CString Effect Function

namespace Client

/-- The value as an `off_t`; `none` is a signed overflow. -/
def offT (n : ℤ) : Option ℤ :=
  if -9223372036854775808 ≤ n ∧ n ≤ 9223372036854775807 then some n else none

def checkedSize (baseSize remainder : ℤ) : Option ℤ :=
  if 0 < remainder then offT (baseSize+1) else some baseSize

def checkedRemainder (remainder : ℤ) : Option ℤ :=
  if 0 < remainder then offT (remainder-1) else some remainder

/-- The ranges of the parts still to be set, from `start` on. -/
def checkedRanges (baseSize : ℤ) : ℕ → (remainder start : ℤ) → Option (List (ℤ × ℤ))
  | 0, _, _ => some []
  | parts+1, remainder, start => do
    let size ← checkedSize baseSize remainder
    let remainder ← checkedRemainder remainder
    let behind ← offT (start+size)
    let rangeEnd ← offT (behind-1)
    let next ← offT (rangeEnd+1)
    let rest ← checkedRanges baseSize parts remainder next
    pure ((start,rangeEnd)::rest)

section

variable {size n : ℕ}

theorem offT_fits {k : ℤ} (hl : -9223372036854775808 ≤ k) (hu : k ≤ 9223372036854775807) :
    offT k = some k := if_pos ⟨hl,hu⟩

/-- The range of part `i`, as the loop leaves it. -/
def rangeOf (size n i : ℕ) : ℤ × ℤ :=
  ((partStart size n i : ℤ),(partStart size n i : ℤ)+partSize size n i-1)

theorem checkedRanges_step (hs : size ≤ 9223372036854775807) {k : ℕ} (hk : k < n) (parts : ℕ) :
    checkedRanges ((size/n : ℕ) : ℤ) (parts+1) ((size%n-k : ℕ) : ℤ) (partStart size n k) =
      (checkedRanges ((size/n : ℕ) : ℤ) parts ((size%n-(k+1) : ℕ) : ℤ)
        (partStart size n (k+1))).map (rangeOf size n k :: ·) := by
  have hfit := part_fits size hk
  have hnext := partStart_succ size n k
  have hbase := Nat.div_le_self size n
  have hmod := Nat.mod_le size n
  have hend : (partStart size n k : ℤ)+partSize size n k-1+1 = partStart size n (k+1) := by omega
  have hpos : (0 : ℤ) ≤ ((size/n : ℕ) : ℤ) := Int.natCast_nonneg _
  have hsize : checkedSize ((size/n : ℕ) : ℤ) ((size%n-k : ℕ) : ℤ) =
      some (partSize size n k : ℤ) := by
    unfold checkedSize
    by_cases hr : k < size%n
    · have hz : partSize size n k = size/n+1 := by simp [partSize,hr]
      have hcast : (partSize size n k : ℤ) = ((size/n : ℕ) : ℤ)+1 := by rw [hz]; rfl
      rw [if_pos (by omega),← hcast,offT_fits (by omega) (by omega)]
    · have hz : partSize size n k = size/n := by simp [partSize,hr]
      rw [if_neg (by omega),hz]
  have hrem : checkedRemainder ((size%n-k : ℕ) : ℤ) = some ((size%n-(k+1) : ℕ) : ℤ) := by
    unfold checkedRemainder
    by_cases hr : k < size%n
    · have hcast : ((size%n-(k+1) : ℕ) : ℤ) = ((size%n-k : ℕ) : ℤ)-1 := by omega
      rw [if_pos (by omega),← hcast,offT_fits (by omega) (by omega)]
    · have hcast : size%n-(k+1) = size%n-k := by omega
      rw [if_neg (by omega),hcast]
  rw [checkedRanges,hsize,hrem]
  simp only [Option.bind_eq_bind,Option.bind_some]
  rw [offT_fits (by omega) (by omega),Option.bind_some,offT_fits (by omega) (by omega),
    Option.bind_some,offT_fits (by omega) (by omega),Option.bind_some,hend]
  cases checkedRanges ((size/n : ℕ) : ℤ) parts ((size%n-(k+1) : ℕ) : ℤ)
    (partStart size n (k+1)) <;> rfl

theorem checkedRanges_all (hs : size ≤ 9223372036854775807) {parts k : ℕ} (hk : k+parts = n) :
    checkedRanges ((size/n : ℕ) : ℤ) parts ((size%n-k : ℕ) : ℤ) (partStart size n k) =
      some ((List.range' k parts).map (rangeOf size n)) := by
  induction parts generalizing k with
  | zero => rfl
  | succ parts ih =>
    rw [checkedRanges_step hs (by omega),ih (by omega),List.range'_succ,List.map_cons]
    rfl

/-- Every byte lies in one part. -/
theorem byte_part (hn : 0 < n) {b : ℕ} (hb : b < size) :
    ∃ i, i < n ∧ partStart size n i ≤ b ∧ b < partStart size n i+partSize size n i := by
  have h : ∀ k ≤ n, b < partStart size n k →
      ∃ i, i < k ∧ partStart size n i ≤ b ∧ b < partStart size n i+partSize size n i := by
    intro k
    induction k with
    | zero =>
      intro _ hlt
      rw [partStart_zero] at hlt
      omega
    | succ k ih =>
      intro hk hlt
      by_cases hbk : b < partStart size n k
      · obtain ⟨i,hi,hin⟩ := ih (by omega) hbk
        exact ⟨i,by omega,hin⟩
      · rw [partStart_succ] at hlt
        exact ⟨k,by omega,by omega,hlt⟩
  have hself : partStart size n n = size := partStart_self hn
  exact h n (Nat.le_refl n) (by omega)

theorem byte_part_unique {b i j : ℕ} (hi : partStart size n i ≤ b)
    (hi' : b < partStart size n i+partSize size n i) (hj : partStart size n j ≤ b)
    (hj' : b < partStart size n j+partSize size n j) : i = j := by
  rcases Nat.lt_trichotomy i j with hij | hij | hij
  · have hm := partStart_mono size n (Nat.succ_le_of_lt hij)
    rw [Nat.succ_eq_add_one,partStart_succ] at hm
    omega
  · exact hij
  · have hm := partStart_mono size n (Nat.succ_le_of_lt hij)
    rw [Nat.succ_eq_add_one,partStart_succ] at hm
    omega

end

/-- The parts set from a plan partition the bytes of the file, part `i` being
assigned source `i`, and no `off_t` overflows on the way. -/
structure Partition (fileSize : ℤ) (plan : MultiGetsPlan) (m : MultipartTaskMeta) : Prop where
  checked : checkedRanges (fileSize/plan.sources.length) plan.sources.length
      (fileSize%plan.sources.length) 0 =
    some (m.indices.map fun i => (m.parts i).range)
  total : ∀ i : PartIndex, i.val < plan.sources.length →
    offT ((m.parts i).rangeEnd-(m.parts i).rangeStart) =
        some ((m.parts i).rangeEnd-(m.parts i).rangeStart) ∧
      offT (partTotalSize (m.parts i)) = some (partTotalSize (m.parts i))
  first : ∀ i : PartIndex, i.val = 0 → (m.parts i).rangeStart = 0
  next : ∀ i j : PartIndex, j.val = i.val+1 → j.val < plan.sources.length →
    (m.parts j).rangeStart = (m.parts i).rangeEnd+1
  last : ∀ i : PartIndex, i.val+1 = plan.sources.length → (m.parts i).rangeEnd = fileSize-1
  size : ∀ i : PartIndex, i.val < plan.sources.length →
    partTotalSize (m.parts i) = fileSize/plan.sources.length+
      if (i.val : ℤ) < fileSize%plan.sources.length then 1 else 0
  cover : ∀ b : ℤ, 0 ≤ b → b < fileSize → ∃! i : PartIndex, i.val < plan.sources.length ∧
    (m.parts i).rangeStart ≤ b ∧ b ≤ (m.parts i).rangeEnd
  source : ∀ (i : PartIndex) (h : i.val < plan.sources.length),
    (m.parts i).sourceIp = plan.sources[i.val].ip.take 63 ∧
      (m.parts i).sourcePort = plan.sources[i.val].port.take 15

theorem partition_of_info {plan : MultiGetsPlan} {m : MultipartTaskMeta} {size : ℕ}
    (hs : size ≤ 9223372036854775807) (hpos : 0 < plan.sources.length)
    (hbound : plan.sources.length ≤ maxSourceServerCount)
    (hcount : m.partCount = plan.sources.length)
    (hinfo : ∀ (i : PartIndex) (h : i.val < plan.sources.length), ∃ path, m.parts i =
      partInfo size plan.sources.length i plan.sources[i.val] path) :
    Partition size plan m := by
  have hrange : ∀ i : PartIndex, i.val < plan.sources.length →
      (m.parts i).rangeStart = partStart size plan.sources.length i.val ∧
        (m.parts i).rangeEnd = (partStart size plan.sources.length i.val : ℤ)+
          partSize size plan.sources.length i.val-1 := by
    intro i hi
    obtain ⟨path,hp⟩ := hinfo i hi
    rw [hp]
    exact ⟨rfl,rfl⟩
  have htotal : ∀ i : PartIndex, i.val < plan.sources.length →
      partTotalSize (m.parts i) = partSize size plan.sources.length i.val := by
    intro i hi
    obtain ⟨hstart,hend⟩ := hrange i hi
    unfold partTotalSize
    omega
  refine
    { checked := ?_, total := ?_, first := ?_, next := ?_, last := ?_, size := ?_, cover := ?_
      source := ?_ }
  · have h := checkedRanges_all (n := plan.sources.length) hs (Nat.zero_add plan.sources.length)
    rw [Nat.sub_zero,partStart_zero,← List.range_eq_range',← indices_val hcount hbound,
      List.map_map] at h
    refine h.trans (congrArg some (List.map_congr_left fun i hi => ?_))
    have hi' : i.val < plan.sources.length := by
      have := (List.mem_filter.mp hi).2
      rw [hcount] at this
      simpa using this
    obtain ⟨hstart,hend⟩ := hrange i hi'
    simp only [Function.comp_apply,rangeOf,MultipartPartInfo.range,hstart,hend]
  · intro i hi
    obtain ⟨hstart,hend⟩ := hrange i hi
    have ht := htotal i hi
    have hfit := part_fits size hi
    exact ⟨offT_fits (by omega) (by omega),offT_fits (by omega) (by omega)⟩
  · intro i hi
    rw [(hrange i (by omega)).1,hi,partStart_zero]
    rfl
  · intro i j hij hj
    have hnext := partStart_succ size plan.sources.length i.val
    rw [(hrange j hj).1,(hrange i (by omega)).2,hij]
    omega
  · intro i hi
    have hnext := partStart_succ size plan.sources.length i.val
    have hself : partStart size plan.sources.length plan.sources.length = size :=
      partStart_self hpos
    rw [hi,hself] at hnext
    rw [(hrange i (by omega)).2]
    omega
  · intro i hi
    rw [htotal i hi,partSize]
    split <;> split <;> omega
  · intro b hb hlt
    have hbs : b.toNat < size := by omega
    obtain ⟨k,hk,hin⟩ := byte_part hpos hbs
    have hk8 : k < maxSourceServerCount := by omega
    refine ⟨⟨k,hk8⟩,⟨hk,?_⟩,?_⟩
    · obtain ⟨hstart,hend⟩ := hrange ⟨k,hk8⟩ hk
      rw [hstart,hend]
      dsimp only
      omega
    · rintro j ⟨hj,hjb⟩
      obtain ⟨hstart,hend⟩ := hrange j hj
      rw [hstart,hend] at hjb
      exact Fin.ext (byte_part_unique (b := b.toNat) (by omega) (by omega) hin.1 hin.2)
  · intro i hi
    obtain ⟨path,hp⟩ := hinfo i hi
    rw [hp]
    exact ⟨rfl,rfl⟩

end Client

open Client

/-- The ranges of every plan partition the file, at every size. -/
theorem plan_partitioned (fileSize : ℤ) (hl : 0 ≤ fileSize) (hu : fileSize ≤ 9223372036854775807)
    (plan : MultiGetsPlan) (hpos : 0 < plan.sources.length)
    (hbound : plan.sources.length ≤ maxSourceServerCount) (m m' : MultipartTaskMeta)
    (h : initPartsFromPlan fileSize plan m = some m') : Partition fileSize plan m' := by
  obtain ⟨size,rfl⟩ := Int.eq_ofNat_of_zero_le hl
  rw [initPartsFromPlan_loop hpos hbound] at h
  obtain ⟨hsame,hparts,_⟩ := initParts_parts size plan.sources.length
    (consecutive_sources plan.sources) h
  refine partition_of_info (by omega) hpos hbound (by rw [hsame]) fun i hi => ?_
  obtain ⟨path,_,hp⟩ := hparts _ (mem_zip_sources plan.sources i hi)
  exact ⟨path,hp⟩

theorem largest_plan_partitioned :
    ∃ m, initPartsFromPlan 9223372036854775807
        ⟨1,9223372036854775807,[],[],List.replicate 8 ⟨[],[]⟩,[]⟩ .zero = some m ∧
      Partition 9223372036854775807
        ⟨1,9223372036854775807,[],[],List.replicate 8 ⟨[],[]⟩,[]⟩ m := by
  have h : (initPartsFromPlan 9223372036854775807
      ⟨1,9223372036854775807,[],[],List.replicate 8 ⟨[],[]⟩,[]⟩ .zero).isSome = true := by
    decide +kernel
  obtain ⟨m,hm⟩ := Option.isSome_iff_exists.mp h
  exact ⟨m,hm,plan_partitioned _ (by decide) (by decide) _ (by decide) (by decide) _ _ hm⟩

end WindCloud
