import Mathlib.Data.List.Nodup
import WindCloud.Lib.CString

/-!
# Hexadecimal text

`unhex` and `hexLower` follow the SQL functions `UNHEX` and `LOWER(HEX(..))`:
either case is read, an odd text starts with a single digit, a text with
another character has no value, and the digits are written in lower case.
-/

set_option autoImplicit false

namespace Hex
open CString

def digits : Text := "0123456789abcdef".toList

def digitValue (c : Char) : Option ℕ :=
  if c ∈ digits then some (digits.idxOf c)
  else if c ∈ "ABCDEF".toList then some (10+"ABCDEF".toList.idxOf c)
  else none

def nibbles : Text → Option (List ℕ)
  | [] => some []
  | c::t =>
    match digitValue c, nibbles t with
    | some d, some ds => some (d::ds)
    | _, _ => none

def pairs : List ℕ → List ℕ
  | a::b::rest => (16*a+b)::pairs rest
  | _ => []

def unhex (t : Text) : Option (List ℕ) :=
  match nibbles t with
  | none => none
  | some ds => if ds.length % 2 = 0 then some (pairs ds) else some (pairs (0::ds))

def digitChar (d : ℕ) : Char := digits.getD d '0'

def hexLower (bs : List ℕ) : Text := bs.flatMap fun b => [digitChar (b/16),digitChar (b%16)]

/-- Sixty-four lower-case digits, the text of a SHA-256 value. -/
structure IsHash (h : Text) : Prop where
  length : h.length = 64
  lower : ∀ c ∈ h, c ∈ digits

instance (h : Text) : Decidable (IsHash h) :=
  decidable_of_iff (h.length = 64 ∧ (h.all fun c => decide (c ∈ digits)) = true)
    ⟨fun ⟨hl,ha⟩ => ⟨hl,by simpa using ha⟩,fun hh => ⟨hh.length,by simpa using hh.lower⟩⟩

theorem digitValue_lower {c : Char} (h : c ∈ digits) :
    ∃ d < 16, digitValue c = some d ∧ digitChar d = c := by
  refine ⟨digits.idxOf c,List.idxOf_lt_length_of_mem h,by simp [digitValue,h],?_⟩
  simp [digitChar,List.getD_eq_getElem?_getD,List.getElem?_eq_getElem (List.idxOf_lt_length_of_mem h)]

theorem digitValue_lt {c : Char} {d : ℕ} (h : digitValue c = some d) : d < 16 := by
  unfold digitValue at h
  split at h
  · rename_i hc
    obtain rfl := Option.some.inj h
    exact List.idxOf_lt_length_of_mem hc
  · split at h
    · rename_i hc
      obtain rfl := Option.some.inj h
      have hlt : "ABCDEF".toList.idxOf c < 6 := List.idxOf_lt_length_of_mem hc
      omega
    · cases h

theorem nibbles_lt {t : Text} {ds : List ℕ} (h : nibbles t = some ds) : ∀ d ∈ ds, d < 16 := by
  induction t generalizing ds with
  | nil =>
    obtain rfl : [] = ds := by simpa [nibbles] using h
    simp
  | cons c t ih =>
    unfold nibbles at h
    cases hv : digitValue c with
    | none => simp [hv] at h
    | some d =>
      cases hn : nibbles t with
      | none => simp [hv,hn] at h
      | some rest =>
        obtain rfl : d::rest = ds := by simpa [hv,hn] using h
        intro e he
        rcases List.mem_cons.mp he with rfl | he
        · exact digitValue_lt hv
        · exact ih hn e he

theorem pairs_lt {ds : List ℕ} (h : ∀ d ∈ ds, d < 16) : ∀ b ∈ pairs ds, b < 256 := by
  induction ds using pairs.induct with
  | case1 a b rest ih =>
    intro e he
    have ha := h a (by simp)
    have hb := h b (by simp)
    rcases List.mem_cons.mp he with rfl | he
    · omega
    · exact ih (fun d hd => h d (by simp [hd])) e he
  | case2 ds hne =>
    match ds, hne with
    | [], _ => simp [pairs]
    | [a], _ => simp [pairs]
    | a::b::rest, hne => exact absurd rfl (hne a b rest)

theorem unhex_lt {t : Text} {bs : List ℕ} (h : unhex t = some bs) : ∀ b ∈ bs, b < 256 := by
  unfold unhex at h
  cases hn : nibbles t with
  | none => simp [hn] at h
  | some ds =>
    have hd := nibbles_lt hn
    by_cases he : ds.length % 2 = 0
    · obtain rfl : pairs ds = bs := by simpa [hn,he] using h
      exact pairs_lt hd
    · obtain rfl : pairs (0::ds) = bs := by simpa [hn,he] using h
      refine pairs_lt fun d hm => ?_
      rcases List.mem_cons.mp hm with rfl | hm
      · omega
      · exact hd d hm

theorem nibbles_lower {t : Text} (h : ∀ c ∈ t, c ∈ digits) :
    ∃ ds, nibbles t = some ds ∧ ds.length = t.length ∧ (∀ d ∈ ds, d < 16) ∧
      ds.map digitChar = t := by
  induction t with
  | nil => exact ⟨[],rfl,rfl,by simp,rfl⟩
  | cons c t ih =>
    obtain ⟨ds,hn,hl,hb,hm⟩ := ih fun c hc => h c (by simp [hc])
    obtain ⟨d,hd,hv,hc⟩ := digitValue_lower (h c (by simp))
    refine ⟨d::ds,by simp [nibbles,hv,hn],by simp [hl],?_,by simp [hc,hm]⟩
    intro e he
    rcases List.mem_cons.mp he with rfl | he
    · exact hd
    · exact hb e he

theorem pairs_length (ds : List ℕ) : (pairs ds).length = ds.length/2 := by
  induction ds using pairs.induct with
  | case1 a b rest ih => simp [pairs,ih]; omega
  | case2 ds h =>
    match ds, h with
    | [], _ => rfl
    | [a], _ => simp [pairs]
    | a::b::rest, h => exact absurd rfl (h a b rest)

theorem hexLower_pairs (ds : List ℕ) (hb : ∀ d ∈ ds, d < 16) (he : ds.length % 2 = 0) :
    hexLower (pairs ds) = ds.map digitChar := by
  induction ds using pairs.induct with
  | case1 a b rest ih =>
    have ha := hb a (by simp)
    have hb' := hb b (by simp)
    have hr := ih (fun d hd => hb d (by simp [hd])) (by simp at he; omega)
    have h1 : (16*a+b)/16 = a := by omega
    have h2 : (16*a+b)%16 = b := by omega
    simp only [hexLower] at hr
    simp [pairs,hexLower,h1,h2,hr]
  | case2 ds h =>
    match ds, h with
    | [], _ => rfl
    | [a], _ => simp at he
    | a::b::rest, h => exact absurd rfl (h a b rest)

theorem unhex_hash {h : Text} (hh : IsHash h) :
    ∃ bs, unhex h = some bs ∧ bs.length = 32 ∧ hexLower bs = h := by
  obtain ⟨ds,hn,hl,hb,hm⟩ := nibbles_lower hh.lower
  have hlen : ds.length = 64 := hl.trans hh.length
  refine ⟨pairs ds,by simp [unhex,hn,hlen],by rw [pairs_length,hlen],?_⟩
  rw [hexLower_pairs ds hb (by omega),hm]

theorem digitChar_injective {a b : ℕ} (ha : a < 16) (hb : b < 16)
    (h : digitChar a = digitChar b) : a = b := by
  have hl : digits.length = 16 := by decide
  have hn : digits.Nodup := by decide
  have ha' : a < digits.length := by omega
  have hb' : b < digits.length := by omega
  simp only [digitChar,List.getD_eq_getElem?_getD,List.getElem?_eq_getElem ha',
    List.getElem?_eq_getElem hb',Option.getD_some] at h
  exact (List.Nodup.getElem_inj_iff hn).mp h

theorem hexLower_length (bs : List ℕ) : (hexLower bs).length = 2*bs.length := by
  induction bs with
  | nil => rfl
  | cons b bs ih =>
    simp only [hexLower,List.flatMap_cons,List.length_append,List.length_cons,List.length_nil] at *
    omega

/-- The text of a byte string determines it. -/
theorem hexLower_injective {bs cs : List ℕ} (hb : ∀ b ∈ bs, b < 256) (hc : ∀ c ∈ cs, c < 256)
    (h : hexLower bs = hexLower cs) : bs = cs := by
  induction bs generalizing cs with
  | nil =>
    cases cs with
    | nil => rfl
    | cons c cs => simp [hexLower] at h
  | cons b bs ih =>
    cases cs with
    | nil => simp [hexLower] at h
    | cons c cs =>
      have hb0 := hb b (by simp)
      have hc0 := hc c (by simp)
      simp only [hexLower,List.flatMap_cons,List.cons_append,List.nil_append,
        List.cons.injEq] at h
      obtain ⟨h1,h2,h3⟩ := h
      have e1 := digitChar_injective (by omega) (by omega) h1
      have e2 := digitChar_injective (by omega) (by omega) h2
      have hbc : b = c := by omega
      rw [hbc,ih (fun b hb' => hb b (by simp [hb'])) (fun c hc' => hc c (by simp [hc'])) h3]

end Hex
