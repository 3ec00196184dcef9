import WindCloud.Lib.Lines
import WindCloud.Lib.Strtok

/-!
# The configuration file

`get_target` reads the file line by line and takes each line apart with
`strtok`. `getTarget` is what it returns when no other thread is at work, and
`Lookup` is where it stands between two of its calls.
-/

set_option autoImplicit false

namespace WindCloud
open CString

def lineSize : ℕ := 100

/-- The string in `line` once its end has been cut off. -/
def lineText (piece : Text) : Text := piece.takeWhile (· ∉ ['\r','\n',terminator])

/-- An empty line or a comment. -/
def skipped : Text → Bool
  | [] => true
  | c::_ => c == '#' || c == ';'

/-- The value that stands on the line `text`, if that is the line of `key`. -/
def valueOn (key text : Text) : Option Text :=
  if skipped text then none
  else match strtok ['='] text with
    | none => none
    | some (lineKey,rest) =>
      if key = lineKey then (strtok ['='] rest).map Prod.fst else none

/-- The rest of `get_target`, `lines` being the pieces `fgets` has yet to return. -/
def getTarget (key : Text) : List Text → Option Text
  | [] => none
  | piece::lines => (valueOn key (lineText piece)).or (getTarget key lines)

theorem getTarget_line {key value : Text} {lines : List Text}
    (h : getTarget key lines = some value) :
    ∃ piece ∈ lines, valueOn key (lineText piece) = some value := by
  induction lines with
  | nil => cases h
  | cons piece lines ih =>
    rcases Option.or_eq_some_iff.mp h with hhere | ⟨_,hlater⟩
    · exact ⟨piece,by simp,hhere⟩
    · obtain ⟨p,hp,hvalue⟩ := ih hlater
      exact ⟨p,List.mem_cons_of_mem _ hp,hvalue⟩

/-- `fgets` into `line`, and the end of the line overwritten. -/
def fillLine (old piece : Text) : Text :=
  let buf := piece ++ terminator::old.drop (piece.length+1)
  buf.set ((stringAt buf 0).takeWhile (· ∉ ['\r','\n'])).length terminator

theorem takeWhile_stop {p : Char → Bool} {x : Char} (hx : ¬p x = true) (l rest : Text) :
    (l ++ x::rest).takeWhile p = l.takeWhile p := by
  rw [List.takeWhile_append]
  split
  · rename_i hall
    rw [List.takeWhile_cons_of_neg hx,List.append_nil]
    exact ((List.takeWhile_prefix p).eq_of_length hall).symm
  · rfl

theorem fillLine_string (old piece : Text) : stringAt (fillLine old piece) 0 = lineText piece := by
  have hterm : ¬decide (terminator ≠ terminator) = true := by decide
  have hstring : ∀ rest, stringAt (piece ++ terminator::rest) 0 = piece.takeWhile (· ≠ terminator) :=
    fun rest => takeWhile_stop hterm piece rest
  have hle := takeWhile_length_le (· ∉ ['\r','\n']) (piece.takeWhile (· ≠ terminator))
  have hcut := @stringAt_cut (piece ++ terminator::old.drop (piece.length+1)) 0 _
    (hle.trans_eq (congrArg List.length (hstring _).symm))
  rw [hstring,← List.prefix_iff_eq_take.mp (List.takeWhile_prefix _),Nat.zero_add] at hcut
  unfold fillLine
  dsimp only
  rw [hstring,hcut,List.takeWhile_takeWhile]
  unfold lineText
  congr 1
  ext a
  rw [decide_eq_decide]
  simp only [List.mem_cons,List.not_mem_nil,or_false,decide_eq_true_eq]
  tauto

/-- The buffers of the process: the packet of the control connection, and one
`line` for each execution of `get_target`. -/
inductive Caller where
  | main
  | worker (i : ℕ)
  deriving DecidableEq

abbrev Pointer := Caller × ℕ

/-- Where an execution of `get_target` stands: before `fgets`, before the call
for `line_key`, before the one for `line_value`, and behind its end. -/
inductive Lookup where
  | reading (lines : List Text)
  | holding (lines : List Text)
  | keyed (lines : List Text)
  | found (value : Text)
  | missing

/-- What `get_target` does up to its next call of `strtok`, or in this call. -/
def Lookup.step (key : Text) (self : Caller) (m : Memory Caller) :
    Lookup → Option (Memory Caller × Lookup)
  | .reading [] => some (m,.missing)
  | .reading (piece::lines) =>
    let m' := m.write self (fillLine (m.buffers self) piece)
    some (m',if skipped (m'.read (self,0)) then .reading lines else .holding lines)
  | .holding lines =>
    let e := m.strtok ['='] (self,0)
    some (e.2,
      match e.1 with
      | none => .reading lines
      | some lineKey => if key = e.2.read lineKey then .keyed lines else .reading lines)
  | .keyed lines =>
    (m.strtokNext ['=']).map fun e =>
      (e.2,
        match e.1 with
        | none => .reading lines
        | some lineValue => .found (e.2.read lineValue))
  | .found _ => none
  | .missing => none

/-- The value a lookup is going to return if it is left alone. -/
def Lookup.Finds (key : Text) (self : Caller) (m : Memory Caller) (value : Option Text) :
    Lookup → Prop
  | .reading lines => value = getTarget key lines
  | .holding lines => ∃ text, m.read (self,0) = text ∧ skipped text = false ∧
      value = (valueOn key text).or (getTarget key lines)
  | .keyed lines => ∃ rest, m.Rests self rest ∧
      value = ((strtok ['='] rest).map Prod.fst).or (getTarget key lines)
  | .found v => value = some v
  | .missing => value = none

section Lookups

variable {key : Text} {self : Caller} {m m' : Memory Caller} {value : Option Text} {l l' : Lookup}

theorem Lookup.finds_apart (h : m.Apart self m') (hl : l.Finds key self m value) :
    l.Finds key self m' value := by
  cases l with
  | reading lines => exact hl
  | holding lines =>
    obtain ⟨text,htext,hrest⟩ := hl
    exact ⟨text,(h.read 0).trans htext,hrest⟩
  | keyed lines =>
    obtain ⟨rest,hrest,hvalue⟩ := hl
    exact ⟨rest,h.rests hrest,hvalue⟩
  | found v => exact hl
  | missing => exact hl

theorem Lookup.step_apart {o : Caller} (ho : o ≠ self)
    (hcursor : ∀ lines, l = .keyed lines → ∃ pos, m.cursor = some (self,pos))
    (h : l.step key self m = some (m',l')) : m.Apart o m' := by
  cases l with
  | reading lines =>
    cases lines with
    | nil =>
      cases h
      exact ⟨rfl,fun _ hpos => hpos⟩
    | cons piece lines =>
      cases h
      exact Memory.write_apart ho _ _
  | holding lines =>
    cases h
    exact Memory.strtok_apart ho _ _
  | keyed lines =>
    obtain ⟨pos,hpos⟩ := hcursor lines rfl
    simp only [Lookup.step,Memory.strtokNext,hpos,Option.map_some,Option.some.injEq,
      Prod.mk.injEq] at h
    rw [← h.1]
    exact Memory.strtok_apart ho _ _
  | found v => cases h
  | missing => cases h

theorem Lookup.step_finds
    (hcursor : ∀ lines, l = .keyed lines → ∃ pos, m.cursor = some (self,pos))
    (hl : l.Finds key self m value) (h : l.step key self m = some (m',l')) :
    l'.Finds key self m' value := by
  cases l with
  | reading lines =>
    cases lines with
    | nil =>
      cases h
      exact hl
    | cons piece lines =>
      have htext := (Memory.read_write m self (fillLine (m.buffers self) piece) 0).trans
        (fillLine_string (m.buffers self) piece)
      have hvalue : value = (valueOn key (lineText piece)).or (getTarget key lines) := hl
      simp only [Lookup.step,Option.some.injEq,Prod.mk.injEq] at h
      obtain ⟨rfl,rfl⟩ := h
      rw [htext]
      split
      · rename_i hskip
        rw [valueOn,if_pos hskip,Option.none_or] at hvalue
        exact hvalue
      · rename_i hskip
        exact ⟨lineText piece,htext,by simpa using hskip,hvalue⟩
  | holding lines =>
    obtain ⟨text,htext,hskip,hvalue⟩ := hl
    simp only [Lookup.step,Option.some.injEq,Prod.mk.injEq] at h
    obtain ⟨rfl,rfl⟩ := h
    rw [valueOn,hskip] at hvalue
    cases ht : strtok ['='] text with
    | none =>
      rw [← htext] at ht
      rw [(Memory.strtok_none ht).1]
      have hnext : value = getTarget key lines := by simpa [htext ▸ ht] using hvalue
      exact hnext
    | some token =>
      obtain ⟨lineKey,rest⟩ := token
      rw [ht] at hvalue
      obtain ⟨start,hptr,hread,-,hrest⟩ := Memory.strtok_some (htext ▸ ht)
      rw [hptr]
      dsimp only
      rw [hread]
      split
      · rename_i hkey
        exact ⟨rest,hrest,by simpa [hkey] using hvalue⟩
      · rename_i hkey
        have hnext : value = getTarget key lines := by simpa [hkey] using hvalue
        exact hnext
  | keyed lines =>
    obtain ⟨rest,hrest,hvalue⟩ := hl
    obtain ⟨pos,hpos⟩ := hcursor lines rfl
    have hread := hrest pos hpos
    simp only [Lookup.step,Memory.strtokNext,hpos,Option.map_some,Option.some.injEq,
      Prod.mk.injEq] at h
    obtain ⟨rfl,rfl⟩ := h
    cases ht : strtok ['='] rest with
    | none =>
      rw [ht] at hvalue
      rw [(Memory.strtok_none (hread ▸ ht)).1]
      exact hvalue
    | some token =>
      obtain ⟨v,behind⟩ := token
      rw [ht] at hvalue
      obtain ⟨start,hptr,hv,-,-⟩ := Memory.strtok_some (hread ▸ ht)
      rw [hptr]
      dsimp only
      rw [hv]
      exact hvalue
  | found v => cases h
  | missing => cases h

end Lookups

end WindCloud
