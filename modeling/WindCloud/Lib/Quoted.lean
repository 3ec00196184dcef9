import WindCloud.Lib.CString

/-!
# Quoted literals

The lexing of literals in a statement: a backslash escapes the next character,
a doubled quote stands for one, and the next other quote ends the literal. What
stands between literals is kept character by character. A reading that is as
long as its text has read every character as itself.
-/

set_option autoImplicit false

namespace CString

inductive Token where
  | char (c : Char)
  | literal (value : Text)
  deriving DecidableEq, Repr

def isQuote (c : Char) : Bool := c == '\'' || c == '"'

/-- What `\c` stands for. Before `%` and `_` the backslash is kept. -/
def escaped (c : Char) : Text :=
  if c = '0' then ['\x00']
  else if c = 'b' then ['\x08']
  else if c = 'n' then ['\n']
  else if c = 'r' then ['\r']
  else if c = 't' then ['\t']
  else if c = 'Z' then ['\x1a']
  else if c = '%' ∨ c = '_' then ['\\',c]
  else [c]

/-- Outside of a literal, one having possibly just been closed; inside of one; or
behind a backslash. -/
inductive Mode where
  | outside (closed : Option (Char × Text))
  | inside (quote : Char) (value : Text)
  | escape (quote : Char) (value : Text)

def flush : Option (Char × Text) → List Token
  | none => []
  | some (_,value) => [.literal value]

def lexFrom : Mode → Text → Option (List Token)
  | .outside closed, [] => some (flush closed)
  | .outside closed, c::t =>
    if closed.map Prod.fst = some c then lexFrom (.inside c ((closed.map Prod.snd).getD [] ++ [c])) t
    else if isQuote c then (lexFrom (.inside c []) t).map (flush closed ++ ·)
    else (lexFrom (.outside none) t).map fun ts => flush closed ++ .char c::ts
  | .inside _ _, [] => none
  | .inside quote value, c::t =>
    if c = '\\' then lexFrom (.escape quote value) t
    else if c = quote then lexFrom (.outside (some (quote,value))) t
    else lexFrom (.inside quote (value ++ [c])) t
  | .escape _ _, [] => none
  | .escape quote value, c::t => lexFrom (.inside quote (value ++ escaped c)) t

def lex (t : Text) : Option (List Token) := lexFrom (.outside none) t

/-- Inside a literal every character stands for itself: no quote, and a backslash
only in front of `%` or `_`. -/
def plain (quote : Char) : Text → Bool
  | [] => true
  | c::t =>
    (if c = '\\' then t.head? == some '%' || t.head? == some '_' else c != quote) && plain quote t

/-- No single quote and no backslash at all. -/
def unquoted (t : Text) : Bool := t.all fun c => c != '\'' && c != '\\'

/-- The text is the one of the tokens, read as it stands. -/
inductive Rendered : List Token → Text → Prop
  | nil : Rendered [] []
  | char {c : Char} {ts : List Token} {t : Text} (hc : isQuote c = false) (rest : Rendered ts t) :
      Rendered (.char c::ts) (c::t)
  | literal {q : Char} {v : Text} {ts : List Token} {t : Text} (hq : isQuote q = true)
      (hv : plain q v = true) (ht : t.head? ≠ some q) (rest : Rendered ts t) :
      Rendered (.literal v::ts) (q::v ++ q::t)

def weight : List Token → ℕ
  | [] => 0
  | .char _::ts => 1+weight ts
  | .literal v::ts => v.length+2+weight ts

theorem escaped_length (c : Char) : (escaped c).length ≤ 2 := by
  unfold escaped
  split_ifs <;> simp

theorem escaped_kept {c : Char} (h : 2 ≤ (escaped c).length) : c = '%' ∨ c = '_' := by
  unfold escaped at h
  split_ifs at h with _ _ _ _ _ _ hc
  all_goals first
    | exact hc
    | simp at h

section Plain

variable {q c : Char} {v t : Text}

theorem isQuote_ne (hq : isQuote q = true) (hc : isQuote c = false) : c ≠ q := by
  rintro rfl
  rw [hq] at hc
  cases hc

theorem kept_escaped (hc : c = '%' ∨ c = '_') : escaped c = ['\\',c] := by
  rcases hc with rfl | rfl <;> rfl

theorem kept_char (hc : c = '%' ∨ c = '_') : c ≠ '\\' ∧ isQuote c = false := by
  rcases hc with rfl | rfl <;> decide

theorem plain_unquoted (h : unquoted t = true) : plain '\'' t = true := by
  induction t with
  | nil => rfl
  | cons c t ih =>
    obtain ⟨hc,ht⟩ := Bool.and_eq_true_iff.mp h
    obtain ⟨hq,hb⟩ := Bool.and_eq_true_iff.mp hc
    rw [plain,if_neg (by simpa using hb),hq,ih ht]
    rfl

theorem lexFrom_plain (hq : isQuote q = true) (v value rest : Text) (hv : plain q v = true) :
    lexFrom (.inside q value) (v ++ rest) = lexFrom (.inside q (value ++ v)) rest := by
  induction v generalizing value with
  | nil => rw [List.nil_append,List.append_nil]
  | cons c v ih =>
    obtain ⟨hc,hrest⟩ := Bool.and_eq_true_iff.mp hv
    have hnext := ih (value ++ [c]) hrest
    rw [List.append_assoc,List.singleton_append] at hnext
    rw [← hnext,List.cons_append,lexFrom]
    split
    · rename_i hb
      subst hb
      cases v with
      | nil => simp at hc
      | cons d v =>
        have hd : d = '%' ∨ d = '_' := by simpa using hc
        obtain ⟨hne,hnq⟩ := kept_char hd
        rw [List.cons_append]
        simp [lexFrom,kept_escaped hd,hne,isQuote_ne hq hnq]
    · rename_i hb
      rw [if_neg hb] at hc
      rw [if_neg (by simpa using hc)]

end Plain

section Readings

variable {q : Char} {ts : List Token} {t : Text}

theorem lexFrom_closed {v : Text} (ht : t.head? ≠ some q) :
    lexFrom (.outside (some (q,v))) t = (lexFrom (.outside none) t).map (.literal v::·) := by
  cases t with
  | nil => rfl
  | cons c t =>
    have hc : q ≠ c := fun h => ht (by simp [h])
    simp only [lexFrom,Option.map_some,Option.some.injEq,hc,if_false,Option.map_none,reduceCtorEq,
      flush]
    split <;> simp [Function.comp_def]

theorem isQuote_backslash (hq : isQuote q = true) : q ≠ '\\' := by
  rintro rfl
  cases hq

theorem lex_rendered (h : Rendered ts t) : lex t = some ts := by
  unfold lex
  induction h with
  | nil => rfl
  | char hc rest ih =>
    rw [lexFrom,ih]
    simp [hc,flush]
  | @literal q v ts t hq hv ht rest ih =>
    rw [List.cons_append,lexFrom]
    simp only [Option.map_none,reduceCtorEq,if_false,hq,if_true,flush,List.nil_append]
    rw [lexFrom_plain hq v [] _ hv,lexFrom,if_neg (isQuote_backslash hq),if_pos rfl,
      lexFrom_closed ht,ih]
    simp

theorem rendered_weight (h : Rendered ts t) : weight ts = t.length := by
  induction h with
  | nil => rfl
  | char hc rest ih =>
    rw [weight,ih,List.length_cons]
    omega
  | literal hq hv ht rest ih =>
    rw [weight,ih,List.length_append,List.length_cons,List.length_cons]
    omega

/-- What a reading from inside a literal comes to: the literal is the value with
`v` behind it, and of `t` at least the length of `v` has been used, `extra` being
what was used before. -/
def Reads (q : Char) (value : Text) (ahead t : Text) (ts : List Token) : Prop :=
  ∃ v rest, ts = .literal (value ++ v)::rest ∧ v.length+1+weight rest ≤ (ahead ++ t).length ∧
    (v.length+1+weight rest = (ahead ++ t).length → ∃ t', ahead ++ t = v ++ q::t' ∧
      (isQuote q = true → plain q v = true) ∧ t'.head? ≠ some q ∧ Rendered rest t')

/-- What a reading comes to in each mode. -/
def Outcome : Mode → Text → List Token → Prop
  | .outside none, t, ts => weight ts ≤ t.length ∧ (weight ts = t.length → Rendered ts t)
  | .outside (some (q,value)), t, ts => Reads q value [q] t ts
  | .inside q value, t, ts => Reads q value [] t ts
  | .escape q value, t, ts => Reads q value ['\\'] t ts

theorem outcome_outside {c : Char} (ih : ∀ mode ts, lexFrom mode t = some ts → Outcome mode t ts)
    (h : lexFrom (.outside none) (c::t) = some ts) : Outcome (.outside none) (c::t) ts := by
  simp only [lexFrom,Option.map_none,reduceCtorEq,if_false,flush,List.nil_append] at h
  split at h
  · rename_i hq
    obtain ⟨ts',hread,rfl⟩ := Option.map_eq_some_iff.mp h
    obtain ⟨v,rest,rfl,hle,heq⟩ := ih _ _ hread
    simp only [List.nil_append] at hle heq
    constructor
    · simp only [weight,List.length_cons,List.nil_append]
      omega
    · intro hw
      simp only [weight,List.length_cons,List.nil_append] at hw
      obtain ⟨t',rfl,hv,ht,hrest⟩ := heq (by omega)
      exact .literal hq (hv hq) ht hrest
  · rename_i hq
    obtain ⟨ts',hread,rfl⟩ := Option.map_eq_some_iff.mp h
    obtain ⟨hle,heq⟩ := ih _ _ hread
    constructor
    · simp only [weight,List.length_cons]
      omega
    · intro hw
      simp only [weight,List.length_cons] at hw
      exact .char (by simpa using hq) (heq (by omega))

theorem outcome_closed {value : Text} (ht : t.head? ≠ some q)
    (hnone : ∀ ts, lexFrom (.outside none) t = some ts → Outcome (.outside none) t ts)
    (h : lexFrom (.outside (some (q,value))) t = some ts) :
    Outcome (.outside (some (q,value))) t ts := by
  rw [lexFrom_closed ht] at h
  obtain ⟨rest,hread,rfl⟩ := Option.map_eq_some_iff.mp h
  obtain ⟨hle,heq⟩ := hnone rest hread
  refine ⟨[],rest,by rw [List.append_nil],?_,fun hw => ?_⟩
  · simp only [List.cons_append,List.nil_append,List.length_cons,List.length_nil]
    omega
  · simp only [List.cons_append,List.nil_append,List.length_cons,List.length_nil] at hw
    exact ⟨t,rfl,fun _ => rfl,ht,heq (by omega)⟩

theorem outcome_doubled {value : Text} (h : Reads q (value ++ [q]) [] t ts) :
    Reads q value [q] (q::t) ts := by
  obtain ⟨v,rest,rfl,hle,-⟩ := h
  have hlt : (q::v).length+1+weight rest < ([q] ++ q::t).length := by
    simp only [List.cons_append,List.nil_append,List.length_cons] at hle ⊢
    omega
  exact ⟨q::v,rest,by simp,Nat.le_of_lt hlt,fun hw => absurd hw (Nat.ne_of_lt hlt)⟩

theorem outcome_inside {c : Char} {value : Text} (hb : c ≠ '\\') (hq : c ≠ q)
    (h : Reads q (value ++ [c]) [] t ts) : Reads q value [] (c::t) ts := by
  obtain ⟨v,rest,rfl,hle,heq⟩ := h
  refine ⟨c::v,rest,by simp,?_,fun hw => ?_⟩
  · simp only [List.nil_append,List.length_cons] at hle ⊢
    omega
  · simp only [List.nil_append,List.length_cons] at hw heq
    obtain ⟨t',rfl,hv,ht,hrest⟩ := heq (by omega)
    refine ⟨t',rfl,fun hquote => ?_,ht,hrest⟩
    rw [plain,if_neg hb,hv hquote]
    simpa using hq

theorem outcome_escape {c : Char} {value : Text} (h : Reads q (value ++ escaped c) [] t ts) :
    Reads q value ['\\'] (c::t) ts := by
  obtain ⟨v,rest,rfl,hle,heq⟩ := h
  have hshort := escaped_length c
  refine ⟨escaped c ++ v,rest,by simp,?_,fun hw => ?_⟩
  · simp only [List.cons_append,List.nil_append,List.length_cons,List.length_append] at hle ⊢
    omega
  · simp only [List.cons_append,List.nil_append,List.length_cons,List.length_append] at hle heq hw
    have hc := escaped_kept (c := c) (by omega)
    have hkept := kept_escaped hc
    obtain ⟨hne,hnq⟩ := kept_char hc
    have htwo : (escaped c).length = 2 := by rw [hkept]; rfl
    obtain ⟨t',rfl,hv,ht,hrest⟩ := heq (by omega)
    refine ⟨t',by rw [hkept]; rfl,fun hq => ?_,ht,hrest⟩
    rw [hkept,List.cons_append,List.cons_append,List.nil_append,plain,if_pos rfl,plain,if_neg hne,
      hv hq]
    simpa using ⟨hc,isQuote_ne hq hnq⟩

theorem lexFrom_outcome (mode : Mode) (t : Text) (ts : List Token) (h : lexFrom mode t = some ts) :
    Outcome mode t ts := by
  induction t generalizing mode ts with
  | nil =>
    cases mode with
    | outside closed =>
      cases closed with
      | none =>
        cases h
        exact ⟨Nat.le_refl _,fun _ => .nil⟩
      | some p =>
        refine outcome_closed (by simp) (fun ts hts => ?_) h
        cases hts
        exact ⟨Nat.le_refl _,fun _ => .nil⟩
    | inside quote value => cases h
    | escape quote value => cases h
  | cons c t ih =>
    cases mode with
    | outside closed =>
      have hnone : ∀ ts, lexFrom (.outside none) (c::t) = some ts →
          Outcome (.outside none) (c::t) ts := fun _ => outcome_outside ih
      cases closed with
      | none => exact hnone ts h
      | some p =>
        obtain ⟨q,value⟩ := p
        by_cases hc : c = q
        · subst hc
          simp only [lexFrom,Option.map_some,Option.getD_some,if_true] at h
          exact outcome_doubled (ih _ _ h)
        · exact outcome_closed (by simpa using hc) hnone h
    | inside quote value =>
      rw [lexFrom] at h
      split at h
      · rename_i hc
        subst hc
        exact ih _ _ h
      · rename_i hb
        split at h
        · rename_i hc
          subst hc
          exact ih _ _ h
        · rename_i hq
          exact outcome_inside hb hq (ih _ _ h)
    | escape quote value => exact outcome_escape (ih _ _ h)

/-- A reading of the length of its text reads every character as itself. -/
theorem rendered_iff : Rendered ts t ↔ lex t = some ts ∧ weight ts = t.length := by
  constructor
  · exact fun h => ⟨lex_rendered h,rendered_weight h⟩
  · rintro ⟨hlex,hw⟩
    exact (lexFrom_outcome _ _ _ hlex).2 hw

end Readings

section Printing

/-- Literals in single quotes, without escapes. -/
def Token.print : Token → Text
  | .char c => [c]
  | .literal v => '\''::v ++ ['\'']

def print (ts : List Token) : Text := ts.flatMap Token.print

def startsLiteral : List Token → Bool
  | .literal _::_ => true
  | _ => false

/-- Outside of the literals no quote stands, and between two of them something does. -/
def separated : List Token → Bool
  | [] => true
  | .char c::ts => !isQuote c && separated ts
  | .literal _::ts => !startsLiteral ts && separated ts

theorem print_length (ts : List Token) : (print ts).length = weight ts := by
  induction ts with
  | nil => rfl
  | cons t ts ih =>
    have hrest : (print (t::ts)).length = t.print.length+weight ts := by
      rw [← ih,print,print,List.flatMap_cons,List.length_append]
    rw [hrest]
    cases t with
    | char c => rfl
    | literal v => simp [Token.print,weight]

theorem print_head {ts : List Token} (hs : separated ts = true) (hl : startsLiteral ts = false) :
    (print ts).head? ≠ some '\'' := by
  cases ts with
  | nil => simp [print]
  | cons t ts =>
    cases t with
    | literal v => cases hl
    | char c =>
      have hc : isQuote c = false := by simpa using (Bool.and_eq_true_iff.mp hs).1
      rintro hhead
      obtain rfl : c = '\'' := by simpa [print,Token.print] using hhead
      cases hc

theorem rendered_print {ts : List Token} (hs : separated ts = true) :
    Rendered ts (print ts) ↔ ∀ v, .literal v ∈ ts → plain '\'' v = true := by
  induction ts with
  | nil => simp [print,Rendered.nil]
  | cons t ts ih =>
    cases t with
    | char c =>
      obtain ⟨hc,hrest⟩ := Bool.and_eq_true_iff.mp hs
      have hprint : print (.char c::ts) = c::print ts := rfl
      rw [hprint]
      constructor
      · intro h v hv
        cases h with
        | char _ h => exact (ih hrest).mp h v (by simpa using hv)
      · intro h
        exact .char (by simpa using hc) ((ih hrest).mpr fun v hv => h v (by simp [hv]))
    | literal value =>
      obtain ⟨hl,hrest⟩ := Bool.and_eq_true_iff.mp hs
      have hprint : print (.literal value::ts) = '\''::value ++ '\''::print ts := by
        simp [print,Token.print]
      rw [hprint]
      constructor
      · intro h v hv
        generalize htext : '\''::value ++ '\''::print ts = text at h
        cases h with
        | @literal q _ _ t hq hplain ht h =>
          rw [List.cons_append,List.cons_append] at htext
          obtain ⟨rfl,htail⟩ := List.cons.inj htext
          obtain ⟨-,hrest'⟩ := List.append_inj htail rfl
          obtain rfl := (List.cons.inj hrest').2
          rcases List.mem_cons.mp hv with hv | hv
          · cases hv
            exact hplain
          · exact (ih hrest).mp h v hv
      · intro h
        exact .literal rfl (h value (by simp)) (print_head hrest (by simpa using hl))
          ((ih hrest).mpr fun v hv => h v (by simp [hv]))

/-- A printed text is read back exactly where its literals are plain. -/
theorem lex_print_iff {ts : List Token} (hs : separated ts = true) :
    lex (print ts) = some ts ↔ ∀ v, .literal v ∈ ts → plain '\'' v = true := by
  rw [← rendered_print hs,rendered_iff]
  exact ⟨fun h => ⟨h,(print_length ts).symm⟩,fun h => h.1⟩

end Printing

end CString
