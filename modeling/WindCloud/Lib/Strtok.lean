import WindCloud.Lib.Tokens

/-!
# The cursor of `strtok`

The library keeps one cursor for all threads. It is a pointer into a buffer of
whichever thread made the last call, and a call writes into that buffer the
terminator of the token it returns. `strtok_none` and `strtok_some` relate a
call to the token and the rest of a plain text.
-/

set_option autoImplicit false

namespace CString

def terminator : Char := '\x00'

/-- The string that stands at `pos`. -/
def stringAt (buf : Text) (pos : ℕ) : Text := (buf.drop pos).takeWhile (· ≠ terminator)

/-- `strtok` at `pos`: where the token stands, the buffer, and the cursor. -/
def strtokAt (delims buf : Text) (pos : ℕ) : Option ℕ × Text × ℕ :=
  let start := pos+((stringAt buf pos).takeWhile (· ∈ delims)).length
  let token := (stringAt buf start).takeWhile (· ∉ delims)
  if token = [] then (none,buf,start)
  else if stringAt buf (start+token.length) = [] then (some start,buf,start+token.length)
  else (some start,buf.set (start+token.length) terminator,start+token.length+1)

/-- The buffers, one for each caller, and the cursor. -/
structure Memory (ι : Type) where
  buffers : ι → Text
  cursor : Option (ι × ℕ)

namespace Memory

variable {ι : Type}

def read (m : Memory ι) (p : ι × ℕ) : Text := stringAt (m.buffers p.1) p.2

variable [DecidableEq ι]

def write (m : Memory ι) (o : ι) (buf : Text) : Memory ι :=
  { m with buffers := Function.update m.buffers o buf }

/-- `strtok(s, delims)`, the token being a pointer or `NULL`. -/
def strtok (m : Memory ι) (delims : Text) (s : ι × ℕ) : Option (ι × ℕ) × Memory ι :=
  let e := strtokAt delims (m.buffers s.1) s.2
  (e.1.map fun start => (s.1,start),{ m.write s.1 e.2.1 with cursor := some (s.1,e.2.2) })

/-- `strtok(NULL, delims)`, which has no meaning before the first call. -/
def strtokNext (m : Memory ι) (delims : Text) : Option (Option (ι × ℕ) × Memory ι) :=
  m.cursor.map (m.strtok delims)

end Memory

section Strings

variable {α : Type} {p : α → Bool}

theorem takeWhile_drop (l : List α) {k : ℕ} (hk : k ≤ (l.takeWhile p).length) :
    (l.drop k).takeWhile p = (l.takeWhile p).drop k := by
  induction l generalizing k with
  | nil => simp
  | cons x l ih =>
    cases k with
    | zero => rfl
    | succ k =>
      by_cases hx : p x = true
      · rw [List.takeWhile_cons_of_pos hx,List.length_cons] at hk
        rw [List.takeWhile_cons_of_pos hx,List.drop_succ_cons,List.drop_succ_cons]
        exact ih (by omega)
      · rw [List.takeWhile_cons_of_neg hx,List.length_nil] at hk
        omega

theorem takeWhile_set {x : α} (hx : ¬p x = true) (l : List α) {j : ℕ}
    (hj : j ≤ (l.takeWhile p).length) : (l.set j x).takeWhile p = (l.takeWhile p).take j := by
  induction l generalizing j with
  | nil => simp
  | cons y l ih =>
    cases j with
    | zero => rw [List.set_cons_zero,List.takeWhile_cons_of_neg hx,List.take_zero]
    | succ j =>
      by_cases hy : p y = true
      · rw [List.takeWhile_cons_of_pos hy,List.length_cons] at hj
        rw [List.set_cons_succ,List.takeWhile_cons_of_pos hy,List.takeWhile_cons_of_pos hy,
          List.take_succ_cons,ih (by omega)]
      · rw [List.takeWhile_cons_of_neg hy,List.length_nil] at hj
        omega

theorem takeWhile_set_later (x : α) (l : List α) {j : ℕ} (hj : (l.takeWhile p).length < j) :
    (l.set j x).takeWhile p = l.takeWhile p := by
  induction l generalizing j with
  | nil => simp
  | cons y l ih =>
    cases j with
    | zero => omega
    | succ j =>
      rw [List.set_cons_succ]
      by_cases hy : p y = true
      · rw [List.takeWhile_cons_of_pos hy,List.length_cons] at hj
        rw [List.takeWhile_cons_of_pos hy,List.takeWhile_cons_of_pos hy,ih (by omega)]
      · rw [List.takeWhile_cons_of_neg hy,List.takeWhile_cons_of_neg hy]

variable {buf : Text} {pos q : ℕ}

theorem stringAt_add {k : ℕ} (hk : k ≤ (stringAt buf pos).length) :
    stringAt buf (pos+k) = (stringAt buf pos).drop k := by
  unfold stringAt at hk ⊢
  rw [← List.drop_drop]
  exact takeWhile_drop _ hk

theorem stringAt_set_before {i : ℕ} (x : Char) (h : i < q) :
    stringAt (buf.set i x) q = stringAt buf q := by
  unfold stringAt
  rw [List.drop_set_of_lt h]

theorem stringAt_set_behind {i : ℕ} (x : Char) (h : q+(stringAt buf q).length < i) :
    stringAt (buf.set i x) q = stringAt buf q := by
  unfold stringAt at h ⊢
  rw [List.drop_set,if_neg (by omega)]
  exact takeWhile_set_later x _ (by omega)

theorem stringAt_cut {k : ℕ} (hk : k ≤ (stringAt buf q).length) :
    stringAt (buf.set (q+k) terminator) q = (stringAt buf q).take k := by
  unfold stringAt at hk ⊢
  rw [List.drop_set,if_neg (by omega),Nat.add_sub_cancel_left]
  exact takeWhile_set (by simp) _ hk

end Strings

section Calls

variable {delims buf token rest : Text} {pos : ℕ}

theorem takeWhile_length_le (p : Char → Bool) (t : Text) : (t.takeWhile p).length ≤ t.length :=
  (List.takeWhile_sublist p).length_le

theorem drop_takeWhile_length (p : Char → Bool) (t : Text) :
    t.drop (t.takeWhile p).length = t.dropWhile p := by
  conv_lhs => enter [2]; rw [← List.takeWhile_append_dropWhile (p := p) (l := t)]
  exact List.drop_left

theorem skipped_string (delims buf : Text) (pos : ℕ) :
    stringAt buf (pos+((stringAt buf pos).takeWhile (· ∈ delims)).length) =
      (stringAt buf pos).dropWhile (· ∈ delims) := by
  rw [stringAt_add (takeWhile_length_le _ _),drop_takeWhile_length]

theorem strtokAt_none (h : strtok delims (stringAt buf pos) = none) :
    ∃ cursor, strtokAt delims buf pos = (none,buf,cursor) ∧ stringAt buf cursor = [] := by
  have hskip := skipped_string delims buf pos
  have hnil : (stringAt buf pos).dropWhile (· ∈ delims) = [] := by
    unfold strtok at h
    split at h
    · assumption
    · cases h
  rw [hnil] at hskip
  refine ⟨_,?_,hskip⟩
  unfold strtokAt
  simp only [hskip,List.takeWhile_nil,if_pos]

theorem strtokAt_some (h : strtok delims (stringAt buf pos) = some (token,rest)) :
    ∃ start buf' cursor, strtokAt delims buf pos = (some start,buf',cursor) ∧
      stringAt buf' start = token ∧ start+token.length ≤ cursor ∧ stringAt buf' cursor = rest := by
  have hskip := skipped_string delims buf pos
  unfold strtokAt
  generalize pos+((stringAt buf pos).takeWhile (· ∈ delims)).length = start at hskip ⊢
  have htoken : (stringAt buf start).takeWhile (· ∉ delims) = token ∧
      ((stringAt buf start).dropWhile (· ∉ delims)).drop 1 = rest ∧ token ≠ [] := by
    have hne := (strtok_token h).1
    unfold strtok at h
    rw [hskip]
    split at h
    · cases h
    · rename_i x t heq
      rw [heq]
      obtain ⟨rfl,rfl⟩ := Prod.mk.inj (Option.some.inj h)
      exact ⟨rfl,rfl,hne⟩
  obtain ⟨htoken,hrest,hne⟩ := htoken
  have hle : token.length ≤ (stringAt buf start).length := by
    rw [← htoken]
    exact takeWhile_length_le _ _
  have hbehind : stringAt buf (start+token.length) =
      (stringAt buf start).dropWhile (· ∉ delims) := by
    rw [stringAt_add hle,← htoken,drop_takeWhile_length]
  simp only [htoken,if_neg hne]
  split
  · rename_i hend
    rw [hbehind] at hend
    refine ⟨_,_,_,rfl,?_,Nat.le_refl _,?_⟩
    · rw [← htoken,← List.append_nil (List.takeWhile _ _),← hend,List.takeWhile_append_dropWhile]
    · rw [hbehind,← hrest,hend,List.drop_nil]
  · rename_i hend
    refine ⟨_,_,_,rfl,?_,Nat.le_succ _,?_⟩
    · rw [stringAt_cut hle,← htoken,List.prefix_iff_eq_take.mp (List.takeWhile_prefix _)]
      simp
    · have hpos := List.length_pos_of_ne_nil hend
      have hnext := stringAt_add (show 1 ≤ (stringAt buf (start+token.length)).length from hpos)
      rw [stringAt_set_before _ (Nat.lt_succ_self _),Nat.succ_eq_add_one,hnext,hbehind,hrest]

theorem strtokAt_ahead {q : ℕ} (hq : q+(stringAt buf q).length ≤ pos) :
    stringAt (strtokAt delims buf pos).2.1 q = stringAt buf q := by
  unfold strtokAt
  dsimp only
  split
  · rfl
  · rename_i hne
    split
    · rfl
    · have hpos := List.length_pos_of_ne_nil hne
      exact stringAt_set_behind _ (by omega)

end Calls

namespace Memory

variable {ι : Type} {o o' : ι} {m m' : Memory ι} {s : ι × ℕ} {delims token rest buf : Text}

/-- What the call of another one leaves: the buffer, and the cursor if it stands there. -/
structure Apart (o : ι) (m m' : Memory ι) : Prop where
  buffer : m'.buffers o = m.buffers o
  cursor : ∀ pos, m'.cursor = some (o,pos) → m.cursor = some (o,pos)

/-- If the cursor stands in the buffer of `o`, it stands at `rest`. -/
def Rests (o : ι) (rest : Text) (m : Memory ι) : Prop :=
  ∀ pos, m.cursor = some (o,pos) → m.read (o,pos) = rest

/-- The string at `q` ends ahead of the cursor. -/
def Ahead (o : ι) (q : ℕ) (m : Memory ι) : Prop :=
  ∀ pos, m.cursor = some (o,pos) → q+(m.read (o,q)).length ≤ pos

theorem Apart.read (h : Apart o m m') (q : ℕ) : m'.read (o,q) = m.read (o,q) := by
  unfold Memory.read
  rw [h.buffer]

theorem Apart.rests (h : Apart o m m') (hr : Rests o rest m) : Rests o rest m' := by
  intro pos hpos
  rw [h.read]
  exact hr pos (h.cursor pos hpos)

theorem Apart.ahead {q : ℕ} (h : Apart o m m') (ha : Ahead o q m) : Ahead o q m' := by
  intro pos hpos
  rw [h.read]
  exact ha pos (h.cursor pos hpos)

variable [DecidableEq ι]

theorem write_apart (h : o ≠ o') (m : Memory ι) (buf : Text) : Apart o m (m.write o' buf) :=
  ⟨Function.update_of_ne h _ _,fun _ hpos => hpos⟩

theorem read_write (m : Memory ι) (o : ι) (buf : Text) (q : ℕ) :
    (m.write o buf).read (o,q) = stringAt buf q := by
  unfold Memory.read write
  dsimp only
  rw [Function.update_self]

theorem strtok_apart (h : o ≠ s.1) (m : Memory ι) (delims : Text) :
    Apart o m (m.strtok delims s).2 := by
  constructor
  · exact (write_apart h m _).buffer
  · intro pos hpos
    cases hpos
    exact absurd rfl h

theorem strtok_none (h : CString.strtok delims (m.read s) = none) :
    (m.strtok delims s).1 = none ∧ Rests s.1 [] (m.strtok delims s).2 := by
  obtain ⟨cursor,he,hstring⟩ := strtokAt_none h
  constructor
  · simp only [Memory.strtok,he,Option.map_none]
  · intro pos hpos
    simp only [Memory.strtok,he] at hpos ⊢
    cases hpos
    exact (read_write m s.1 _ _).trans hstring

theorem strtok_some (h : CString.strtok delims (m.read s) = some (token,rest)) :
    ∃ start, (m.strtok delims s).1 = some (s.1,start) ∧
      (m.strtok delims s).2.read (s.1,start) = token ∧
      Ahead s.1 start (m.strtok delims s).2 ∧ Rests s.1 rest (m.strtok delims s).2 := by
  obtain ⟨start,buf',cursor,he,htoken,hle,hrest⟩ := strtokAt_some h
  have hread : ∀ q, (m.strtok delims s).2.read (s.1,q) = stringAt buf' q := by
    intro q
    simp only [Memory.strtok,he]
    exact read_write m s.1 buf' q
  refine ⟨start,?_,(hread start).trans htoken,?_,?_⟩
  · simp only [Memory.strtok,he,Option.map_some]
  · intro pos hpos
    rw [hread,htoken]
    simp only [Memory.strtok,he] at hpos
    cases hpos
    exact hle
  · intro pos hpos
    rw [hread]
    simp only [Memory.strtok,he] at hpos
    cases hpos
    exact hrest

theorem strtok_ahead {q : ℕ} (h : q+(m.read (s.1,q)).length ≤ s.2) :
    (m.strtok delims s).2.read (s.1,q) = m.read (s.1,q) :=
  (read_write m s.1 _ q).trans (strtokAt_ahead h)

end Memory

end CString
