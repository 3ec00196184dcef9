import WindCloud.Common.Config
import WindCloud.Lib.Firsts

/-!
# What the configuration says and what is read

A configuration is comments, blank lines and entries. `get_target` takes the file in
pieces of `lineSize` bytes, so that the end of a long comment can read as an entry, and
ends a value at a second separator.
-/

set_option autoImplicit false

namespace WindCloud
open CString Firsts

abbrev Pair := Text × Text

/-- The key and the value that stand on a line. -/
def pairOn (text : Text) : Option Pair :=
  if skipped text then none
  else match strtok ['='] text with
    | none => none
    | some (key,rest) => (strtok ['='] rest).map fun e => (key,e.1)

def readings (text : Text) : List Pair :=
  (fgetsLines lineSize text).filterMap fun piece => pairOn (lineText piece)

inductive ConfigLine where
  | comment (text : Text)
  | blank (text : Text)
  | entry (key value : Text)

inductive LineEnd where
  | lf | crlf

def LineEnd.text : LineEnd → Text
  | .lf => ['\n']
  | .crlf => ['\r','\n']

/-- No line break and no end of a string. -/
def Plain (t : Text) : Prop := ∀ c ∈ t, c ∉ ['\r','\n',terminator]

namespace ConfigLine

def text : ConfigLine → Text
  | .comment t => t
  | .blank t => t
  | .entry key value => key ++ '='::value

def entries : ConfigLine → List Pair
  | .entry key value => [(key,value)]
  | _ => []

def WellFormed : ConfigLine → Prop
  | .comment t => skipped t = true ∧ t ≠ [] ∧ Plain t
  | .blank t => ∀ c ∈ t, c = ' ' ∨ c = '\t'
  | .entry key value => key ≠ [] ∧ '=' ∉ key ∧ skipped key = false ∧ value ≠ [] ∧
      Plain key ∧ Plain value

/-- An entry, or what the further pieces of a comment read as. -/
def pairs : ConfigLine → List Pair
  | .comment t => (fgetsLines lineSize t).tail.filterMap pairOn
  | .blank _ => []
  | .entry key value => [(key,value)]

end ConfigLine

/-- The lines of the file, the last of which may lack its end. -/
structure ConfigText where
  ended : List (ConfigLine × LineEnd)
  last : Option ConfigLine
  wellFormed : ∀ l ∈ ended.map Prod.fst ++ last.toList, l.WellFormed
  distinct : (((ended.map Prod.fst ++ last.toList).flatMap ConfigLine.entries).map Prod.fst).Nodup

namespace ConfigText

def lines (c : ConfigText) : List ConfigLine := c.ended.map Prod.fst ++ c.last.toList

def entries (c : ConfigText) : List Pair := c.lines.flatMap ConfigLine.entries

def text (c : ConfigText) : Text :=
  (c.ended.flatMap fun l => l.1.text ++ l.2.text) ++ c.last.toList.flatMap ConfigLine.text

/-- Every key has its value, and no other text is a key. -/
structure Served (c : ConfigText) : Prop where
  present : ∀ key value, (key,value) ∈ c.entries →
    getTarget key (fgetsLines lineSize c.text) = some value
  absent : ∀ key, key ∉ c.entries.map Prod.fst → getTarget key (fgetsLines lineSize c.text) = none

/-- Entries fit a piece and have one separator, and a piece of a comment that reads
as an entry repeats one, or one with its key was read above. -/
structure Readable (c : ConfigText) : Prop where
  short : ∀ key value, (key,value) ∈ c.entries → key.length+1+value.length < lineSize
  single : ∀ key value, (key,value) ∈ c.entries → '=' ∉ value
  strays : ∀ before p after, c.lines.flatMap ConfigLine.pairs = before ++ p::after →
    p.1 ∉ before.map Prod.fst → p ∈ c.entries

end ConfigText

section Pieces

variable {key value t l rest : Text} {ps : List Text}

theorem valueOn_pair (key text : Text) :
    valueOn key text = (pairOn text).bind fun p => if p.1 = key then some p.2 else none := by
  unfold valueOn pairOn
  split
  · rfl
  · cases strtok ['='] text with
    | none => rfl
    | some e =>
      obtain ⟨lineKey,rest⟩ := e
      dsimp only
      cases strtok ['='] rest with
      | none => simp
      | some e =>
        by_cases hk : key = lineKey
        · simp [hk]
        · simp [hk,Ne.symm hk]

/-- What `get_target` finds is the first pair with the key. -/
theorem getTarget_firstValue (key : Text) (ps : List Text) :
    getTarget key ps = firstValue key (ps.filterMap fun piece => pairOn (lineText piece)) := by
  induction ps with
  | nil => rfl
  | cons piece ps ih =>
    rw [getTarget,valueOn_pair,List.filterMap_cons,ih]
    cases pairOn (lineText piece) with
    | none => rfl
    | some p =>
      by_cases hk : p.1 = key
      · simp [firstValue,hk]
      · simp [firstValue,hk]

theorem lineText_plain (hl : Plain l) : lineText l = l :=
  List.takeWhile_eq_self_iff.mpr fun c hc => decide_eq_true (hl c hc)

theorem lineText_end {c : Char} (hl : Plain l) (hc : c ∈ ['\r','\n',terminator]) (rest : Text) :
    lineText (l ++ c::rest) = l := by
  rw [lineText,takeWhile_stop (p := fun c => decide (c ∉ ['\r','\n',terminator]))
    (by simpa only [decide_eq_true_eq,not_not] using hc)]
  exact lineText_plain hl

theorem plain_all (h : l.all (fun c => decide (c ∉ ['\r','\n',terminator])) = true) : Plain l :=
  fun c hc => of_decide_eq_true (List.all_eq_true.mp h c hc)

theorem plain_newline (hl : Plain l) : '\n' ∉ l := fun h => hl _ h (by decide)

theorem filterMap_toList {α β : Type} (f : α → Option β) (x : α) (xs : List α) :
    (x::xs).filterMap f = (f x).toList ++ xs.filterMap f := by
  rw [List.filterMap_cons]
  cases f x <;> rfl

theorem readings_piece {piece : Text} (h : fgetsLines lineSize t = piece::fgetsLines lineSize rest) :
    readings t = (pairOn (lineText piece)).toList ++ readings rest := by
  unfold readings
  rw [h,filterMap_toList]

theorem pairs_short (hn : '\n' ∉ l) (hl : l.length < lineSize) :
    (fgetsLines lineSize l).filterMap pairOn = (pairOn l).toList := by
  by_cases hnil : l = []
  · subst hnil
    rfl
  · rw [fgetsLines_short hn hnil hl,filterMap_toList,List.filterMap_nil,List.append_nil]

theorem long_pieces (hl : Plain l) (hlong : lineSize-1 ≤ l.length) :
    Plain (l.take (lineSize-1)) ∧ ∀ t, fgetsLines lineSize (l ++ t) =
      l.take (lineSize-1)::fgetsLines lineSize (l.drop (lineSize-1) ++ t) := by
  have htake : (l.take (lineSize-1)).length = lineSize-1 := List.length_take_of_le hlong
  have hne : l.take (lineSize-1) ≠ [] := List.ne_nil_of_length_pos (by rw [htake]; decide)
  have hfirst : Plain (l.take (lineSize-1)) := fun c hc => hl c (List.mem_of_mem_take hc)
  refine ⟨hfirst,fun t => ?_⟩
  have hfull := fgetsLines_full (l.drop (lineSize-1) ++ t) (plain_newline hfirst) hne htake
  rw [← List.append_assoc,List.take_append_drop] at hfull
  exact hfull

theorem readings_short (e : LineEnd) (hl : Plain l) (hshort : l.length < lineSize-1) :
    readings (l ++ (e.text ++ rest)) = (pairOn l).toList ++ readings rest := by
  have hn := plain_newline hl
  cases e with
  | lf =>
    have hfit : l.length+1 < lineSize := by omega
    have hread := readings_piece (fgetsLines_line rest hn hfit)
    rw [line,lineText_end hl (by decide),List.append_assoc] at hread
    exact hread
  | crlf =>
    have hreturn : '\n' ∉ l ++ ['\r'] := by
      rw [List.mem_append,not_or]
      exact ⟨hn,by decide⟩
    have hlen : (l ++ ['\r']).length = l.length+1 := List.length_append
    have hsplit : l ++ (LineEnd.crlf.text ++ rest) = l ++ ['\r'] ++ (line [] ++ rest) := by
      rw [List.append_assoc]
      rfl
    rw [hsplit]
    by_cases hfits : (l ++ ['\r']).length+1 < lineSize
    · have hread := readings_piece (fgetsLines_line rest hreturn hfits)
      have hcut : lineText (line (l ++ ['\r'])) = l := by
        rw [line,List.append_assoc]
        exact lineText_end hl (by decide) ['\n']
      rw [hcut,line,List.append_assoc] at hread
      exact hread
    · -- the line feed is left for a piece of its own
      have hroom : (l ++ ['\r']).length = lineSize-1 := by omega
      have hfull := fgetsLines_full (line [] ++ rest) hreturn
        (List.append_ne_nil_of_right_ne_nil _ (by decide)) hroom
      have hempty : ([] : Text).length+1 < lineSize := by decide
      have hread := readings_piece (fgetsLines_line rest (by simp) hempty)
      rw [readings_piece hfull,hread,lineText_end hl (by decide)]
      rfl

theorem readings_line (e : LineEnd) (hl : Plain l) :
    readings (l ++ (e.text ++ rest)) =
      (fgetsLines lineSize l).filterMap pairOn ++ readings rest := by
  induction hlen : l.length using Nat.strong_induction_on generalizing l with
  | _ n ih =>
    subst hlen
    by_cases hlong : lineSize-1 ≤ l.length
    · obtain ⟨hfirst,hpieces⟩ := long_pieces hl hlong
      have hlater : Plain (l.drop (lineSize-1)) := fun c hc => hl c (List.mem_of_mem_drop hc)
      have hshorter : (l.drop (lineSize-1)).length < l.length := by
        rw [List.length_drop]
        unfold lineSize at *
        omega
      have hwhole := hpieces []
      rw [List.append_nil,List.append_nil] at hwhole
      rw [readings_piece (hpieces _),hwhole,filterMap_toList,lineText_plain hfirst,
        List.append_assoc,ih _ hshorter hlater rfl]
    · have hshort : l.length < lineSize := Nat.lt_of_lt_of_le (Nat.lt_of_not_le hlong) (Nat.sub_le _ _)
      rw [pairs_short (plain_newline hl) hshort]
      exact readings_short e hl (by omega)

theorem readings_last (hl : Plain l) :
    readings l = (fgetsLines lineSize l).filterMap pairOn := by
  have hpieces : ∀ piece ∈ fgetsLines lineSize l, Plain piece := by
    intro piece hp c hc
    refine hl c ?_
    rw [← fgetsLines_flatten lineSize l]
    exact List.mem_flatten_of_mem hp hc
  unfold readings
  generalize fgetsLines lineSize l = ps at hpieces
  induction ps with
  | nil => rfl
  | cons piece ps ih =>
    rw [filterMap_toList,filterMap_toList,lineText_plain (hpieces piece (by simp)),
      ih fun p hp => hpieces p (List.mem_cons_of_mem _ hp)]

end Pieces

section Lines

variable {key value t : Text} {l : ConfigLine}

theorem pairOn_none (h : '=' ∉ t) : pairOn t = none := by
  unfold pairOn
  split
  · rfl
  cases t with
  | nil => rfl
  | cons c t =>
    have htoken : strtok ['='] (c::t) = some (c::t,[]) := strtok_last (List.cons_ne_nil c t)
      fun x hx hd => h (List.mem_singleton.mp hd ▸ hx)
    rw [htoken]
    rfl

theorem pairOn_entry (h : (ConfigLine.entry key value).WellFormed) (hv : '=' ∉ value) :
    pairOn (key ++ '='::value) = some (key,value) := by
  obtain ⟨hkey,hk,hskip,hvalue,-,-⟩ := h
  have hline : skipped (key ++ '='::value) = false := by
    cases key with
    | nil => exact absurd rfl hkey
    | cons c key => exact hskip
  have hfield : strtok ['='] (key ++ '='::value) = some (key,value) :=
    strtok_field hkey (fun x hx hd => hk (List.mem_singleton.mp hd ▸ hx)) (List.mem_singleton.mpr rfl)
  have hlast : strtok ['='] value = some (value,[]) :=
    strtok_last hvalue fun x hx hd => hv (List.mem_singleton.mp hd ▸ hx)
  unfold pairOn
  rw [hline,if_neg Bool.false_ne_true,hfield]
  dsimp only
  rw [hlast]
  rfl

theorem pairOn_length {p : Pair} (h : pairOn t = some p) :
    p.1.length+1+p.2.length ≤ t.length ∧ '=' ∉ p.2 := by
  unfold pairOn at h
  split at h
  · cases h
  cases hkey : strtok ['='] t with
  | none =>
    rw [hkey] at h
    cases h
  | some e =>
    obtain ⟨key,rest⟩ := e
    rw [hkey] at h
    obtain ⟨⟨value,behind⟩,hvalue,rfl⟩ := Option.map_eq_some_iff.mp h
    have htoken := strtok_token hvalue
    have hrest : rest ≠ [] := by
      rintro rfl
      cases hvalue
    have hfirst := (strtok_length hkey).2 hrest
    have hsecond := (strtok_length hvalue).1
    refine ⟨?_,fun hsep => htoken.2 _ hsep (List.mem_singleton.mpr rfl)⟩
    show key.length+1+value.length ≤ t.length
    omega

theorem skipped_take (n : ℕ) (ht : t ≠ []) : skipped (t.take (n+1)) = skipped t := by
  cases t with
  | nil => exact absurd rfl ht
  | cons c t => rfl

theorem wellFormed_plain (h : l.WellFormed) : Plain l.text := by
  cases l with
  | comment t => exact h.2.2
  | blank t =>
    intro c hc
    rcases h c hc with rfl | rfl <;> decide
  | entry key value =>
    intro c hc
    rcases List.mem_append.mp hc with hc | hc
    · exact h.2.2.2.2.1 c hc
    rcases List.mem_cons.mp hc with rfl | hc
    · decide
    · exact h.2.2.2.2.2 c hc

theorem comment_pairs (h : (ConfigLine.comment t).WellFormed) :
    (fgetsLines lineSize t).filterMap pairOn = (ConfigLine.comment t).pairs := by
  obtain ⟨hskip,hne,hplain⟩ := h
  have hhead : ∀ first, skipped first = true → (pairOn first).toList = [] := by
    intro first hfirst
    rw [pairOn,if_pos hfirst]
    rfl
  show _ = (fgetsLines lineSize t).tail.filterMap pairOn
  by_cases hlong : lineSize-1 ≤ t.length
  · obtain ⟨-,hpieces⟩ := long_pieces hplain hlong
    have hwhole := hpieces []
    rw [List.append_nil,List.append_nil] at hwhole
    have hfirst : skipped (t.take (lineSize-1)) = true := (skipped_take 98 hne).trans hskip
    rw [hwhole,filterMap_toList,List.tail_cons,hhead _ hfirst,List.nil_append]
  · have hshort : t.length < lineSize := by omega
    rw [fgetsLines_short (plain_newline hplain) hne hshort,filterMap_toList,List.tail_cons,
      hhead _ hskip,List.nil_append]

theorem blank_pairs (h : (ConfigLine.blank t).WellFormed) :
    (fgetsLines lineSize t).filterMap pairOn = [] := by
  refine List.filterMap_eq_nil_iff.mpr fun piece hp => pairOn_none fun hsep => ?_
  have hmem : '=' ∈ t := by
    rw [← fgetsLines_flatten lineSize t]
    exact List.mem_flatten_of_mem hp hsep
  rcases h _ hmem with hc | hc <;> exact absurd hc (by decide)

theorem line_pairs (h : l.WellFormed)
    (hfits : ∀ key value, (key,value) ∈ l.entries →
      key.length+1+value.length < lineSize ∧ '=' ∉ value) :
    (fgetsLines lineSize l.text).filterMap pairOn = l.pairs := by
  cases l with
  | comment t => exact comment_pairs h
  | blank t => exact blank_pairs h
  | entry key value =>
    obtain ⟨hfit,hsingle⟩ := hfits key value (List.mem_singleton.mpr rfl)
    have hlen : (key ++ '='::value).length < lineSize := by
      rw [List.length_append,List.length_cons]
      omega
    have hshort := pairs_short (plain_newline (wellFormed_plain h)) hlen
    exact hshort.trans (congrArg Option.toList (pairOn_entry h hsingle))

theorem entries_pairs (p : Pair) (h : p ∈ l.entries) : p ∈ l.pairs := by
  cases l with
  | entry key value => exact h
  | comment t => cases h
  | blank t => cases h

end Lines

namespace ConfigText

variable {c : ConfigText}

theorem readings_ended {ls : List (ConfigLine × LineEnd)} (h : ∀ l ∈ ls.map Prod.fst, l.WellFormed)
    (rest : Text) : readings ((ls.flatMap fun l => l.1.text ++ l.2.text) ++ rest) =
      ((ls.map Prod.fst).flatMap fun l => (fgetsLines lineSize l.text).filterMap pairOn) ++
        readings rest := by
  induction ls with
  | nil => rfl
  | cons e ls ih =>
    obtain ⟨l,e⟩ := e
    have hl := h l (by simp)
    rw [List.flatMap_cons,List.map_cons,List.flatMap_cons,List.append_assoc,List.append_assoc,
      readings_line e (wellFormed_plain hl),ih fun k hk => h k (List.mem_cons_of_mem _ hk),
      List.append_assoc]

theorem readings_text (c : ConfigText) : readings c.text =
    c.lines.flatMap fun l => (fgetsLines lineSize l.text).filterMap pairOn := by
  have hended := readings_ended fun l hl => c.wellFormed l (List.mem_append_left _ hl)
  unfold text lines
  rw [hended,List.flatMap_append]
  congr 1
  cases hlast : c.last with
  | none => rfl
  | some l =>
    have hl : l.WellFormed := c.wellFormed l (by simp [hlast])
    rw [Option.toList_some,List.flatMap_singleton,List.flatMap_singleton,
      readings_last (wellFormed_plain hl)]

theorem getTarget_fits {key value : Text}
    (h : getTarget key (fgetsLines lineSize c.text) = some value) :
    key.length+1+value.length < lineSize ∧ '=' ∉ value := by
  obtain ⟨piece,hpiece,hvalue⟩ := getTarget_line h
  have hlen := fgetsLines_length (by decide) hpiece
  have hcut : (lineText piece).length ≤ piece.length := takeWhile_length_le _ _
  rw [valueOn_pair] at hvalue
  obtain ⟨p,hp,hkey⟩ := Option.bind_eq_some_iff.mp hvalue
  split at hkey
  · rename_i hk
    obtain rfl := Option.some.inj hkey
    subst hk
    obtain ⟨hsum,hsep⟩ := pairOn_length hp
    exact ⟨by omega,hsep⟩
  · cases hkey

/-- The configuration is read as it is written exactly where no value is cut, at the
end of a piece or at a separator, and no comment reads as an entry of its own. -/
theorem configuration_served_iff (c : ConfigText) : c.Served ↔ c.Readable := by
  have hpairs : (∀ key value, (key,value) ∈ c.entries →
      key.length+1+value.length < lineSize ∧ '=' ∉ value) →
      readings c.text = c.lines.flatMap ConfigLine.pairs := by
    intro hfits
    rw [readings_text]
    refine List.flatMap_congr fun l hl => line_pairs (c.wellFormed l hl) fun key value he => ?_
    exact hfits key value (List.mem_flatMap.mpr ⟨l,hl,he⟩)
  have hsub : ∀ p ∈ c.entries, p ∈ c.lines.flatMap ConfigLine.pairs := by
    intro p hp
    obtain ⟨l,hl,he⟩ := List.mem_flatMap.mp hp
    exact List.mem_flatMap.mpr ⟨l,hl,entries_pairs p he⟩
  have hagrees := firstValue_agrees c.distinct hsub
  constructor
  · intro hserved
    have hfits := fun key value he => getTarget_fits (hserved.present key value he)
    have hread := hpairs hfits
    refine ⟨fun key value he => (hfits key value he).1,fun key value he => (hfits key value he).2,?_⟩
    refine hagrees.mp ⟨fun key value he => ?_,fun key hkey => ?_⟩
    · rw [← hread,← hserved.present key value he,getTarget_firstValue]
      rfl
    · rw [← hread,← hserved.absent key hkey,getTarget_firstValue]
      rfl
  · intro hreadable
    have hread := hpairs fun key value he => ⟨hreadable.short key value he,hreadable.single key value he⟩
    obtain ⟨hpresent,habsent⟩ := hagrees.mpr hreadable.strays
    constructor
    · intro key value he
      rw [getTarget_firstValue,← hpresent key value he,← hread]
      rfl
    · intro key hkey
      rw [getTarget_firstValue,← habsent key hkey,← hread]
      rfl

/-- A value with a separator inside, such as a password may have. -/
def password : ConfigText where
  ended := [(.entry "db_pwd".toList "a=b".toList,.lf)]
  last := none
  wellFormed := by
    intro l hl
    rw [List.mem_singleton.mp hl]
    exact ⟨by decide,by decide,rfl,by decide,plain_all (by decide),plain_all (by decide)⟩
  distinct := by decide

theorem password_cut : ¬∀ c : ConfigText, c.Served := by
  intro hall
  have hvalue := (hall password).present "db_pwd".toList "a=b".toList (by decide)
  exact absurd hvalue (by decide +kernel)

end ConfigText

end WindCloud
