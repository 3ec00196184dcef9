import WindCloud.Lib.CString

/-!
# Reading a file line by line

`fgets` with a buffer of `size` bytes returns at a line end or when its buffer
is full, so that a long line arrives in several pieces.
-/

set_option autoImplicit false

namespace CString

/-- The pieces `fgets` returns, `left` being the room left behind `piece`. -/
def pieces (room : ℕ) : ℕ → Text → Text → List Text
  | _, piece, [] => if piece = [] then [] else [piece]
  | left, piece, c::t =>
    if c = '\n' ∨ left = 1 then (piece ++ [c])::pieces room room [] t
    else pieces room (left-1) (piece ++ [c]) t

def fgetsLines (size : ℕ) (t : Text) : List Text := pieces (size-1) (size-1) [] t

def line (t : Text) : Text := t ++ ['\n']

theorem pieces_line {room left : ℕ} {piece l : Text} (rest : Text) (hn : '\n' ∉ l)
    (hl : l.length < left) :
    pieces room left piece (l ++ '\n'::rest) =
      (piece ++ l ++ ['\n'])::pieces room room [] rest := by
  induction l generalizing left piece with
  | nil => simp [pieces]
  | cons c l ih =>
    have hc : c ≠ '\n' := fun h => hn (by simp [h])
    have hleft : left ≠ 1 := by
      simp only [List.length_cons] at hl
      omega
    rw [List.cons_append,pieces,if_neg (by simp [hc,hleft])]
    rw [ih (fun h => hn (by simp [h])) (by simp only [List.length_cons] at hl; omega)]
    simp

theorem fgetsLines_line {size : ℕ} {l : Text} (rest : Text) (hn : '\n' ∉ l)
    (hl : l.length+1 < size) :
    fgetsLines size (line l ++ rest) = line l::fgetsLines size rest := by
  have hroom : l.length < size-1 := by omega
  have hp : pieces (size-1) (size-1) [] (l ++ '\n'::rest) =
      ([] ++ l ++ ['\n'])::pieces (size-1) (size-1) [] rest := pieces_line rest hn hroom
  simpa [fgetsLines,line] using hp

theorem pieces_append (room left : ℕ) (piece a rest : Text) :
    ∃ ls, pieces room left piece (a ++ '\n'::rest) = ls ++ pieces room room [] rest := by
  induction a generalizing left piece with
  | nil => exact ⟨[piece ++ ['\n']],by simp [pieces]⟩
  | cons c a ih =>
    rw [List.cons_append,pieces]
    split
    · obtain ⟨ls,h⟩ := ih room []
      exact ⟨(piece ++ [c])::ls,by rw [h,List.cons_append]⟩
    · exact ih (left-1) (piece ++ [c])

theorem fgetsLines_append (size : ℕ) (a rest : Text) :
    ∃ ls, fgetsLines size (line a ++ rest) = ls ++ fgetsLines size rest := by
  obtain ⟨ls,h⟩ := pieces_append (size-1) (size-1) [] a rest
  exact ⟨ls,by simpa [fgetsLines,line] using h⟩

theorem fgetsLines_flatMap {size : ℕ} (ls : List Text)
    (h : ∀ l ∈ ls, '\n' ∉ l ∧ l.length+1 < size) :
    fgetsLines size (ls.flatMap line) = ls.map line := by
  induction ls with
  | nil => simp [fgetsLines,pieces]
  | cons l ls ih =>
    obtain ⟨hn,hl⟩ := h l (by simp)
    rw [List.flatMap_cons,fgetsLines_line _ hn hl,ih fun k hk => h k (by simp [hk]),List.map_cons]

theorem pieces_short {room left : ℕ} (piece : Text) {t : Text} (hn : '\n' ∉ t)
    (hl : t.length < left) :
    pieces room left piece t = if piece ++ t = [] then [] else [piece ++ t] := by
  induction t generalizing left piece with
  | nil => simp [pieces]
  | cons c t ih =>
    have hc : c ≠ '\n' := fun h => hn (by simp [h])
    simp only [List.length_cons] at hl
    rw [pieces,if_neg (by simp only [hc,false_or]; omega),
      ih (piece ++ [c]) (fun h => hn (by simp [h])) (by omega)]
    simp

/-- What is read of a text that breaks off: whole lines, and the beginning of
the line behind them. -/
theorem fgetsLines_prefix {size : ℕ} (ls : List Text) (h : ∀ l ∈ ls, '\n' ∉ l ∧ l.length+1 < size)
    {t : Text} (ht : t <+: ls.flatMap line) :
    ∃ a b cut, ls = a ++ b ∧ cut <+: b.headD [] ∧
      fgetsLines size t = a.map line ++ if cut = [] then [] else [cut] := by
  induction ls generalizing t with
  | nil =>
    obtain rfl := List.prefix_nil.mp ht
    exact ⟨[],[],[],rfl,List.prefix_rfl,rfl⟩
  | cons l ls ih =>
    obtain ⟨hn,hl⟩ := h l (by simp)
    have hrest : ∀ k ∈ ls, '\n' ∉ k ∧ k.length+1 < size := fun k hk => h k (by simp [hk])
    have hwhole : ∀ t', t' <+: ls.flatMap line → t = line l ++ t' →
        ∃ a b cut, l::ls = a ++ b ∧ cut <+: b.headD [] ∧
          fgetsLines size t = a.map line ++ if cut = [] then [] else [cut] := by
      rintro t' ht' rfl
      obtain ⟨a,b,cut,rfl,hcut,hlines⟩ := ih hrest ht'
      exact ⟨l::a,b,cut,rfl,hcut,by rw [fgetsLines_line _ hn hl,hlines,List.map_cons,List.cons_append]⟩
    rw [List.flatMap_cons] at ht
    rcases List.prefix_or_prefix_of_prefix ht (List.prefix_append (line l) _) with hin | ⟨t',rfl⟩
    · rcases List.prefix_concat_iff.mp hin with hall | hcut
      · exact hwhole [] List.nil_prefix (by rw [hall,List.append_nil,line])
      · obtain ⟨u,rfl⟩ := hcut
        refine ⟨[],(t ++ u)::ls,t,rfl,List.prefix_append t u,?_⟩
        rw [List.length_append] at hl
        rw [fgetsLines,pieces_short [] (fun hm => hn (by simp [hm])) (by omega)]
        rfl
    · exact hwhole t' ((List.prefix_append_right_inj _).mp ht) rfl

section Long

variable {room left : ℕ}

theorem pieces_full (piece : Text) {a : Text} (t : Text) (hn : '\n' ∉ a) (ha : a ≠ [])
    (hl : a.length = left) :
    pieces room left piece (a ++ t) = (piece ++ a)::pieces room room [] t := by
  induction a generalizing left piece with
  | nil => exact absurd rfl ha
  | cons c a ih =>
    have hc : c ≠ '\n' := fun h => hn (by simp [h])
    rw [List.length_cons] at hl
    rw [List.cons_append,pieces]
    cases a with
    | nil =>
      rw [List.length_nil] at hl
      rw [if_pos (.inr (by omega)),List.nil_append]
    | cons d a =>
      rw [List.length_cons] at hl
      rw [if_neg (by simp only [hc,false_or]; omega),
        ih (piece ++ [c]) (fun h => hn (List.mem_cons_of_mem c h)) (List.cons_ne_nil d a)
          (by rw [List.length_cons]; omega)]
      simp

theorem pieces_flatten (piece t : Text) : (pieces room left piece t).flatten = piece ++ t := by
  induction t generalizing left piece with
  | nil =>
    rw [pieces]
    split
    · rename_i h
      rw [h]
      rfl
    · simp
  | cons c t ih =>
    rw [pieces]
    split
    · rw [List.flatten_cons,ih,List.nil_append,List.append_assoc,List.singleton_append]
    · rw [ih,List.append_assoc,List.singleton_append]

theorem pieces_length {piece t p : Text} (hleft : 0 < left) (hpiece : piece.length+left ≤ room)
    (hp : p ∈ pieces room left piece t) : p.length ≤ room := by
  induction t generalizing left piece with
  | nil =>
    rw [pieces] at hp
    split at hp
    · cases hp
    · rw [List.mem_singleton.mp hp]
      omega
  | cons c t ih =>
    have hlen : (piece ++ [c]).length = piece.length+1 := List.length_append
    rw [pieces] at hp
    split at hp
    · rcases List.mem_cons.mp hp with rfl | hp
      · omega
      · exact ih (by omega) (by rw [List.length_nil]; omega) hp
    · rename_i hgo
      rw [not_or] at hgo
      exact ih (by omega) (by omega) hp

end Long

theorem fgetsLines_full {size : ℕ} {a : Text} (t : Text) (hn : '\n' ∉ a) (ha : a ≠ [])
    (hl : a.length = size-1) : fgetsLines size (a ++ t) = a::fgetsLines size t :=
  pieces_full [] t hn ha hl

theorem fgetsLines_short {size : ℕ} {t : Text} (hn : '\n' ∉ t) (ht : t ≠ [])
    (hl : t.length < size) : fgetsLines size t = [t] := by
  by_cases hfull : t.length = size-1
  · have h := fgetsLines_full [] hn ht hfull
    rw [List.append_nil] at h
    exact h
  · rw [fgetsLines,pieces_short [] hn (by omega),List.nil_append,if_neg ht]

theorem fgetsLines_flatten (size : ℕ) (t : Text) : (fgetsLines size t).flatten = t :=
  pieces_flatten [] t

theorem fgetsLines_length {size : ℕ} {t p : Text} (hsize : 1 < size) (hp : p ∈ fgetsLines size t) :
    p.length < size := by
  have hroom : p.length ≤ size-1 :=
    pieces_length (show 0 < size-1 by omega) (by rw [List.length_nil]; omega) hp
  omega

end CString
