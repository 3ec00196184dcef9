import Mathlib.Data.Int.Notation
import Mathlib.Data.List.Basic
import Mathlib.Data.List.TakeDrop
import Mathlib.Tactic.Common

/-!
# Results of calls on a socket

A call that is to send some entries takes a few of them, none, is interrupted
or fails; a list of results says what will happen. `Conveys` is what a sending
loop does with such a list: it hands over the data up to some entry, and
returns zero exactly when that is all of it.
-/

set_option autoImplicit false

namespace Socket

inductive SysResult where
  | count (n : ℕ)
  | eintr
  | error
  deriving DecidableEq, Repr

/-- The results still to come, and what has been handed over. -/
structure Outgoing (β : Type) where
  results : List SysResult
  delivered : List β
  deriving DecidableEq, Repr

variable {β : Type}

def SysResult.size : SysResult → ℕ
  | .count n => n
  | _ => 0

def bytes : List SysResult → ℕ
  | [] => 0
  | r::rs => r.size+bytes rs

/-- The call has taken something. -/
def SysResult.moves (r : SysResult) : Prop := 0 < r.size

/-- The call has taken something, or can be made again. -/
def SysResult.goesOn (r : SysResult) : Prop := 0 < r.size ∨ r = .eintr

instance (r : SysResult) : Decidable r.moves := inferInstanceAs (Decidable (_ < _))

instance (r : SysResult) : Decidable r.goesOn := inferInstanceAs (Decidable (_ ∨ _))

@[simp] theorem bytes_nil : bytes [] = 0 := rfl

@[simp] theorem bytes_cons (r : SysResult) (rs : List SysResult) :
    bytes (r::rs) = r.size+bytes rs := rfl

@[simp] theorem bytes_append (rs rs' : List SysResult) : bytes (rs ++ rs') = bytes rs+bytes rs' := by
  induction rs with
  | nil => simp
  | cons r rs ih => rw [List.cons_append,bytes_cons,bytes_cons,ih,Nat.add_assoc]

/-- The loop has used the results `used` of `rs`; it ends at `e`, without a return
value when there are no more results. A value other than zero is excused by a
result that is not `good`, or otherwise; zero is returned behind good ones only. -/
structure Uses (good : SysResult → Prop) (excuse : Prop) (data : List β) (rs used : List SysResult)
    (out : List β) (e : Option ℤ × Outgoing β) : Prop where
  split : rs = used ++ e.2.results
  delivered : e.2.delivered = out ++ data.take (bytes used)
  fits : bytes used ≤ data.length
  whole : e.1 = some 0 ↔ bytes used = data.length
  broken : ∀ ret, e.1 = some ret → ret ≠ 0 → (∃ r ∈ used, ¬good r) ∨ excuse
  sound : e.1 = some 0 → ∀ r ∈ used, good r

def Conveys (good : SysResult → Prop) (excuse : Prop) (data : List β) (rs : List SysResult)
    (out : List β) (e : Option ℤ × Outgoing β) : Prop :=
  ∃ used, Uses good excuse data rs used out e

section Rules

variable {good : SysResult → Prop} {excuse : Prop} {data block rest out : List β} {r : SysResult}
  {rs : List SysResult} {e : Option ℤ × Outgoing β} {w : Outgoing β} {ret : ℤ}

theorem conveys_end (h : data = []) : Conveys good excuse data rs out (some 0,⟨rs,out⟩) := by
  subst h
  exact ⟨[],rfl,by simp,Nat.zero_le _,by simp,by simp,by simp⟩

theorem conveys_wait (h : data ≠ []) : Conveys good excuse data rs out (none,⟨rs,out⟩) := by
  have hpos := List.length_pos_of_ne_nil h
  exact ⟨[],rfl,by simp,Nat.zero_le _,by simp only [reduceCtorEq,false_iff,bytes_nil]; omega,by simp,
    by simp⟩

theorem conveys_break (h : data ≠ []) (hr : r.size = 0) (hbad : ¬good r) (hret : ret ≠ 0) :
    Conveys good excuse data (r::rs) out (some ret,⟨rs,out⟩) := by
  have hpos := List.length_pos_of_ne_nil h
  refine ⟨[r],rfl,by simp [hr],by simp [hr],?_,fun _ _ _ => .inl ⟨r,by simp,hbad⟩,
    fun hz => absurd (Option.some.inj hz) hret⟩
  simp only [Option.some.injEq,hret,false_iff,bytes_cons,hr,bytes_nil]
  omega

theorem conveys_excused (h : data ≠ []) (hx : excuse) (hret : ret ≠ 0) :
    Conveys good excuse data rs out (some ret,⟨rs,out⟩) := by
  have hpos := List.length_pos_of_ne_nil h
  refine ⟨[],rfl,by simp,Nat.zero_le _,?_,fun _ _ _ => .inr hx,by simp⟩
  simp only [Option.some.injEq,hret,false_iff,bytes_nil]
  omega

theorem conveys_step (hr : r.size ≤ data.length) (hgood : good r)
    (h : Conveys good excuse (data.drop r.size) rs (out ++ data.take r.size) e) :
    Conveys good excuse data (r::rs) out e := by
  obtain ⟨used,hsplit,hout,hfits,hwhole,hbroken,hsound⟩ := h
  rw [List.length_drop] at hfits hwhole
  refine ⟨r::used,by rw [hsplit,List.cons_append],?_,?_,?_,fun ret hret hne => ?_,
    fun hz => List.forall_mem_cons.mpr ⟨hgood,hsound hz⟩⟩
  · rw [hout,List.append_assoc,bytes_cons,List.take_add]
  · rw [bytes_cons]
    omega
  · rw [hwhole,bytes_cons]
    omega
  · rcases hbroken ret hret hne with ⟨b,hb,hbad⟩ | hx
    · exact .inl ⟨b,List.mem_cons_of_mem _ hb,hbad⟩
    · exact .inr hx

theorem conveys_append (hb : Conveys good excuse block rs out (some 0,w))
    (h : Conveys good excuse rest w.results w.delivered e) :
    Conveys good excuse (block ++ rest) rs out e := by
  obtain ⟨used,hsplit,hout,_,hwhole,_,hsound⟩ := hb
  obtain ⟨used',hsplit',hout',hfits',hwhole',hbroken',hsound'⟩ := h
  have hlen : bytes used = block.length := hwhole.mp rfl
  refine ⟨used ++ used',?_,?_,?_,?_,fun ret hret hne => ?_,
    fun hz => List.forall_mem_append.mpr ⟨hsound rfl,hsound' hz⟩⟩
  · rw [hsplit,List.append_assoc,← hsplit']
  · rw [hout',hout,List.append_assoc,bytes_append,hlen,List.take_length,List.take_length_add_append]
  · rw [bytes_append,List.length_append]
    omega
  · rw [hwhole',bytes_append,List.length_append]
    omega
  · rcases hbroken' ret hret hne with ⟨b,hb,hbad⟩ | hx
    · exact .inl ⟨b,List.mem_append_right _ hb,hbad⟩
    · exact .inr hx

theorem conveys_stop {ret' : Option ℤ} (hb : Conveys good excuse block rs out e)
    (hne : e.1 ≠ some 0) (hret : ret' ≠ some 0) (hnone : ret' = none ∨ e.1 ≠ none) :
    Conveys good excuse (block ++ rest) rs out (ret',e.2) := by
  obtain ⟨used,hsplit,hout,hfits,hwhole,hbroken,-⟩ := hb
  have hlt : bytes used < block.length :=
    Nat.lt_of_le_of_ne hfits fun hc => hne (hwhole.mpr hc)
  refine ⟨used,hsplit,?_,?_,?_,fun ret hr _ => ?_,fun hz => absurd hz hret⟩
  · rw [hout,List.take_append_of_le_length hfits]
  · rw [List.length_append]
    omega
  · rw [List.length_append]
    exact iff_of_false hret (by omega)
  · rcases hnone with hnone | hsome
    · rw [hnone] at hr
      cases hr
    · obtain ⟨n,hn⟩ := Option.ne_none_iff_exists'.mp hsome
      exact hbroken n hn fun hz => hne (by rw [hn,hz])

theorem conveys_block {broken : ℤ} {next : Option ℤ × Outgoing β} (hbroken : broken ≠ 0)
    (hb : Conveys good excuse block rs out e)
    (h : e.1 = some 0 → Conveys good excuse rest e.2.results e.2.delivered next) :
    Conveys good excuse (block ++ rest) rs out
      (if e.1 = some 0 then next else (e.1.map fun _ => broken,e.2)) := by
  obtain ⟨ret,w⟩ := e
  split
  · rename_i hz
    dsimp only at hz h
    subst hz
    exact conveys_append hb (h rfl)
  · rename_i hz
    refine conveys_stop hb hz ?_ ?_
    · intro hc
      obtain ⟨_,_,hc⟩ := Option.map_eq_some_iff.mp hc
      exact hbroken hc
    · cases ret with
      | none => exact .inl rfl
      | some n => exact .inr (by simp)

theorem conveys_beginning (h : Conveys good excuse data rs [] e) : e.2.delivered <+: data := by
  obtain ⟨used,_,hout,_⟩ := h
  rw [hout,List.nil_append]
  exact List.take_prefix _ _

theorem conveys_whole (h : Conveys good excuse data rs [] e) :
    e.1 = some 0 ↔ e.2.delivered = data := by
  obtain ⟨used,_,hout,hfits,hwhole,-,-⟩ := h
  rw [hwhole,hout,List.nil_append,List.take_eq_self_iff]
  omega

/-- A finished loop that has sent everything met good results only. -/
theorem conveys_sound (h : Conveys good excuse data rs [] e) (hr : e.2.results = [])
    (hd : e.2.delivered = data) : ∀ r ∈ rs, good r := by
  have hz := (conveys_whole h).mpr hd
  obtain ⟨used,hsplit,-,-,-,-,hsound⟩ := h
  rw [hr,List.append_nil] at hsplit
  subst hsplit
  exact hsound hz

theorem conveys_good (h : Conveys good excuse data rs [] (some ret,w)) (hg : ∀ r ∈ rs, good r)
    (hx : ¬excuse) : w.delivered = data := by
  have hwhole := conveys_whole h
  obtain ⟨used,hsplit,_,_,_,hbroken,-⟩ := h
  refine hwhole.mp (congrArg some ?_)
  by_contra hne
  rcases hbroken ret rfl hne with ⟨b,hb,hbad⟩ | hc
  · exact hbad (hg b (by rw [hsplit]; exact List.mem_append_left _ hb))
  · exact hx hc

end Rules

end Socket
