import WindCloud.Lib.Decimal
import WindCloud.Lib.Quoted
import WindCloud.Server.Auth
import WindCloud.Server.FileTransfer

/-!
# The texts of the statements

The format string of each query in the `dao_*.c` files, taken apart at its
conversions, with the array it is printed into. Nothing is escaped on the way,
and the value `snprintf` returns is not looked at.
-/

set_option autoImplicit false

namespace WindCloud
open CString

/-- A conversion `%s` always stands between single quotes, and is `quoted` with them. -/
inductive Piece where
  | code (t : String)
  | number (n : ℤ)
  | quoted (u : Text)

def Piece.text : Piece → Text
  | .code t => t.toList
  | .number n => decimal n
  | .quoted u => '\''::u ++ ['\'']

/-- What the template means: the value itself in the place of its literal. -/
def Piece.tokens : Piece → List Token
  | .code t => t.toList.map .char
  | .number n => (decimal n).map .char
  | .quoted u => [.literal u]

def Piece.values : Piece → List Text
  | .quoted u => [u]
  | _ => []

structure Query where
  size : ℕ
  pieces : List Piece

namespace Query

def text (q : Query) : Text := q.pieces.flatMap Piece.text

def tokens (q : Query) : List Token := q.pieces.flatMap Piece.tokens

def values (q : Query) : List Text := q.pieces.flatMap Piece.values

def sql (q : Query) : Text := q.text.take (q.size-1)

/-- The text is not cut, and the server reads the tokens of the template. -/
def Intact (q : Query) : Prop := q.sql = q.text ∧ lex q.sql = some q.tokens

end Query

namespace Statement

def query : Statement → Query
  | userByName username =>
    ⟨512,[.code "SELECT id,password_hash,salt FROM users WHERE username=",.quoted username]⟩
  | insertUser username passwordHash salt =>
    ⟨512,[.code "INSERT INTO users(username,password_hash,salt) VALUES(",.quoted username,.code ",",
      .quoted passwordHash,.code ",",.quoted salt,.code ")"]⟩
  | nodeByPath userId path =>
    ⟨512,[.code "SELECT id, type FROM paths WHERE user_id=",.number userId,.code " AND path=",
      .quoted path]⟩
  | listDir userId dirId =>
    ⟨256,[.code "SELECT file_name, type FROM paths WHERE user_id=",.number userId,
      .code " AND parent_id=",.number dirId]⟩
  | createNode userId fullPath parentId fileName type =>
    ⟨1024,[.code "INSERT INTO paths (user_id, path, parent_id, file_name, type) VALUES (",
      .number userId,.code ", ",.quoted fullPath,.code ", ",.number parentId,.code ", ",
      .quoted fileName,.code ", ",.number type,.code ")"]⟩
  | createFileNode userId fullPath parentId fileName fileId =>
    ⟨1024,[.code "INSERT INTO paths (user_id, path, file_id, parent_id, file_name, type) VALUES (",
      .number userId,.code ", ",.quoted fullPath,.code ", ",.number fileId,.code ", ",
      .number parentId,.code ", ",.quoted fileName,.code ", 0)"]⟩
  | fileInfoByPath userId path =>
    ⟨512,[.code "SELECT id, file_id, type FROM paths WHERE user_id=",.number userId,
      .code " AND path=",.quoted path]⟩
  | anyChild userId dirId =>
    ⟨256,[.code "SELECT id FROM paths WHERE user_id=",.number userId,.code " AND parent_id=",
      .number dirId,.code " LIMIT 1"]⟩
  | deleteNode userId nodeId =>
    ⟨256,[.code "DELETE FROM paths WHERE id=",.number nodeId,.code " AND user_id=",.number userId]⟩
  | fileBySha256 sha256sum =>
    ⟨256,[.code "SELECT id, size FROM files WHERE sha256sum=UNHEX(",.quoted sha256sum,.code ")"]⟩
  | insertFile sha256sum size =>
    ⟨256,[.code "INSERT INTO files (sha256sum, size, count) VALUES (UNHEX(",.quoted sha256sum,
      .code "), ",.number size,.code ", 1)"]⟩
  | addRefCount fileId => ⟨256,[.code "UPDATE files SET count=count+1 WHERE id=",.number fileId]⟩
  | subRefCount fileId =>
    ⟨256,[.code "UPDATE files SET count=count-1 WHERE id=",.number fileId,.code " AND count>0"]⟩
  | refCount fileId => ⟨256,[.code "SELECT count FROM files WHERE id=",.number fileId]⟩
  | deleteFile fileId => ⟨256,[.code "DELETE FROM files WHERE id=",.number fileId]⟩
  | fileInfoById fileId =>
    ⟨256,[.code "SELECT LOWER(HEX(sha256sum)), size FROM files WHERE id=",.number fileId]⟩
  | upsertSource fileId ip port =>
    ⟨512,[.code "INSERT INTO file_sources (file_id, server_ip, server_port, status) VALUES (",
      .number fileId,.code ", ",.quoted ip,.code ", ",.quoted port,
      .code ", 1) ON DUPLICATE KEY UPDATE status=1"]⟩
  | listSources fileId =>
    ⟨256,[.code "SELECT server_ip, server_port FROM file_sources WHERE file_id=",.number fileId,
      .code " AND status=1 ORDER BY id ASC"]⟩
  | deleteSources fileId => ⟨256,[.code "DELETE FROM file_sources WHERE file_id=",.number fileId]⟩

end Statement

section Pieces

/-- A literal is closed by something other than a quote. -/
def closes : List Piece → Bool
  | .quoted _::_ => false
  | .code t::_ => t.toList != []
  | _ => true

/-- The code of a template holds no quotes. -/
def wellFormed : List Piece → Bool
  | [] => true
  | .code t::ps => t.toList.all (!isQuote ·) && wellFormed ps
  | .number _::ps => wellFormed ps
  | .quoted _::ps => closes ps && wellFormed ps

theorem decimal_unquoted (n : ℤ) : ∀ c ∈ decimal n, isQuote c = false := by
  have hdigits : ∀ c ∈ Nat.toDigits 10 n.natAbs, isQuote c = false := by
    intro c hc
    have hdigit := digits_isDigit n.natAbs c hc
    cases hq : isQuote c with
    | false => rfl
    | true =>
      have hquote : c = '\'' ∨ c = '"' := by simpa [isQuote] using hq
      rcases hquote with rfl | rfl <;> exact absurd hdigit (by decide)
  unfold decimal
  split
  · rintro c (_ | ⟨_,hc⟩)
    · rfl
    · exact hdigits c hc
  · exact hdigits

theorem separated_chars (t : Text) {ts : List Token} (ht : ∀ c ∈ t, isQuote c = false)
    (hs : separated ts = true) : separated (t.map .char ++ ts) = true := by
  induction t with
  | nil => exact hs
  | cons c t ih =>
    rw [List.map_cons,List.cons_append,separated,ht c (by simp),ih fun d hd => ht d (by simp [hd])]
    rfl

theorem startsLiteral_chars {t : Text} (ts : List Token) (ht : t ≠ []) :
    startsLiteral (t.map .char ++ ts) = false := by
  cases t with
  | nil => exact absurd rfl ht
  | cons c t => rfl

theorem closes_tokens {ps : List Piece} (h : closes ps = true) :
    startsLiteral (ps.flatMap Piece.tokens) = false := by
  cases ps with
  | nil => rfl
  | cons p ps =>
    cases p with
    | code t => exact startsLiteral_chars _ (by simpa [closes] using h)
    | number n =>
      refine startsLiteral_chars _ ?_
      unfold decimal
      split <;> simp
    | quoted u => cases h

theorem separated_tokens {ps : List Piece} (h : wellFormed ps = true) :
    separated (ps.flatMap Piece.tokens) = true := by
  induction ps with
  | nil => rfl
  | cons p ps ih =>
    cases p with
    | code t =>
      obtain ⟨ht,hps⟩ := Bool.and_eq_true_iff.mp h
      exact separated_chars _ (by simpa using ht) (ih hps)
    | number n => exact separated_chars _ (decimal_unquoted n) (ih h)
    | quoted u =>
      obtain ⟨hc,hps⟩ := Bool.and_eq_true_iff.mp h
      have hnext := closes_tokens hc
      simp only [List.flatMap_cons,Piece.tokens,List.singleton_append,separated,hnext,ih hps]
      rfl

end Pieces

section Numbers

/-- The values of an `int`. -/
def IsInt (n : ℤ) : Prop := -2147483648 ≤ n ∧ n ≤ 2147483647

theorem decimal_length {n : ℤ} {k : ℕ} (hk : 0 < k) (hn : n.natAbs < 10^k) :
    (decimal n).length ≤ k+1 := by
  have hdigits := (Nat.length_toDigits_le_iff (by decide : 1 < 10) hk).mpr hn
  unfold decimal
  split
  · rw [List.length_cons]
    omega
  · omega

theorem int_length {n : ℤ} (h : IsInt n) : (decimal n).length ≤ 11 := by
  obtain ⟨hl,hu⟩ := h
  exact decimal_length (k := 10) (by decide) (by omega)

theorem off_length {n : ℤ} (hl : offMin ≤ n) (hu : n ≤ offMax) : (decimal n).length ≤ 20 := by
  unfold offMin at hl
  unfold offMax at hu
  exact decimal_length (k := 19) (by decide) (by omega)

end Numbers

namespace Query

variable {q : Query}

theorem length_cons (p : Piece) (ps : List Piece) :
    ((p::ps).flatMap Piece.text).length = p.text.length+(ps.flatMap Piece.text).length := by
  rw [List.flatMap_cons,List.length_append]

theorem text_print (q : Query) : q.text = print q.tokens := by
  have hchars : ∀ t : Text, (t.map Token.char).flatMap Token.print = t := by
    intro t
    induction t with
    | nil => rfl
    | cons c t ih =>
      rw [List.map_cons,List.flatMap_cons,ih]
      rfl
  obtain ⟨size,pieces⟩ := q
  unfold text tokens print
  rw [List.flatMap_assoc]
  congr 1
  funext p
  cases p with
  | code t => exact (hchars _).symm
  | number n => exact (hchars _).symm
  | quoted u => simp [Piece.text,Piece.tokens,Token.print]

theorem mem_values {v : Text} : .literal v ∈ q.tokens ↔ v ∈ q.values := by
  unfold tokens values
  simp only [List.mem_flatMap]
  constructor
  · rintro ⟨p,hp,hv⟩
    refine ⟨p,hp,?_⟩
    cases p with
    | code t => simp [Piece.tokens] at hv
    | number n => simp [Piece.tokens] at hv
    | quoted u => simpa [Piece.tokens,Piece.values] using hv
  · rintro ⟨p,hp,hv⟩
    refine ⟨p,hp,?_⟩
    cases p with
    | code t => simp [Piece.values] at hv
    | number n => simp [Piece.values] at hv
    | quoted u => simpa [Piece.tokens,Piece.values] using hv

/-- A query arrives intact exactly where it fits and its values are plain. -/
theorem intact_iff (hsize : 0 < q.size) (hw : wellFormed q.pieces = true) :
    q.Intact ↔ q.text.length < q.size ∧ ∀ u ∈ q.values, plain '\'' u = true := by
  have hcut : q.sql = q.text ↔ q.text.length < q.size := by
    rw [sql,List.take_eq_self_iff]
    omega
  have hlex : lex q.text = some q.tokens ↔ ∀ u ∈ q.values, plain '\'' u = true := by
    have hread : lex (print q.tokens) = some q.tokens ↔
        ∀ v, .literal v ∈ q.tokens → plain '\'' v = true := lex_print_iff (separated_tokens hw)
    rw [text_print,hread]
    simp only [mem_values]
  constructor
  · rintro ⟨hsql,hread⟩
    rw [hsql] at hread
    exact ⟨hcut.mp hsql,hlex.mp hread⟩
  · rintro ⟨hfits,hplain⟩
    have hsql := hcut.mpr hfits
    exact ⟨hsql,by rw [hsql]; exact hlex.mpr hplain⟩

end Query

namespace Statement

theorem query_size (s : Statement) : 0 < s.query.size := by
  cases s <;> simp [query]

theorem query_wellFormed (s : Statement) : wellFormed s.query.pieces = true := by
  cases s <;> rfl

/-- Values of the lengths of the packets' fields and of the columns, numbers of the
sizes of `int` and `off_t`. Only a path that is looked up is shorter than the
packets and sessions allow. -/
def Packed : Statement → Prop
  | userByName username => username.length < cmdDataLen
  | insertUser username passwordHash salt =>
    username.length < cmdDataLen ∧ passwordHash.length ≤ 64 ∧ salt.length ≤ 32
  | nodeByPath userId path | fileInfoByPath userId path => IsInt userId ∧ path.length ≤ 438
  | createNode userId fullPath parentId fileName type =>
    IsInt userId ∧ fullPath.length < fullPathLen ∧ IsInt parentId ∧
      fileName.length < fileNameLen ∧ IsInt type
  | createFileNode userId fullPath parentId fileName fileId =>
    IsInt userId ∧ fullPath.length < fullPathLen ∧ IsInt parentId ∧
      fileName.length < fileNameLen ∧ IsInt fileId
  | fileBySha256 sha256sum => sha256sum.length ≤ 64
  | insertFile sha256sum size => sha256sum.length ≤ 64 ∧ offMin ≤ size ∧ size ≤ offMax
  | upsertSource fileId ip port => IsInt fileId ∧ ip.length < 64 ∧ port.length < 16
  | listDir userId id | anyChild userId id | deleteNode userId id => IsInt userId ∧ IsInt id
  | addRefCount id | subRefCount id | refCount id | deleteFile id | fileInfoById id
  | listSources id | deleteSources id => IsInt id

theorem packed_fits (s : Statement) (h : s.Packed) : s.query.text.length < s.query.size := by
  unfold Query.text
  cases s with
  | userByName username =>
    have hname : username.length < 256 := h
    simp only [query,Query.length_cons]
    simp [Piece.text]
    omega
  | insertUser username passwordHash salt =>
    obtain ⟨h₁,hhash,hsalt⟩ := h
    have hname : username.length < 256 := h₁
    simp only [query,Query.length_cons]
    simp [Piece.text]
    omega
  | nodeByPath userId path =>
    obtain ⟨h₁,hpath⟩ := h
    have hu := int_length h₁
    simp only [query,Query.length_cons]
    simp [Piece.text]
    omega
  | listDir userId dirId =>
    obtain ⟨h₁,h₂⟩ := h
    have hu := int_length h₁
    have hid := int_length h₂
    simp only [query,Query.length_cons]
    simp [Piece.text]
    omega
  | createNode userId fullPath parentId fileName type =>
    obtain ⟨h₁,h₂,h₃,h₄,h₅⟩ := h
    have hpath : fullPath.length < 512 := h₂
    have hname : fileName.length < 256 := h₄
    have hu := int_length h₁
    have hparent := int_length h₃
    have htype := int_length h₅
    simp only [query,Query.length_cons]
    simp [Piece.text]
    omega
  | createFileNode userId fullPath parentId fileName fileId =>
    obtain ⟨h₁,h₂,h₃,h₄,h₅⟩ := h
    have hpath : fullPath.length < 512 := h₂
    have hname : fileName.length < 256 := h₄
    have hu := int_length h₁
    have hparent := int_length h₃
    have hid := int_length h₅
    simp only [query,Query.length_cons]
    simp [Piece.text]
    omega
  | fileInfoByPath userId path =>
    obtain ⟨h₁,hpath⟩ := h
    have hu := int_length h₁
    simp only [query,Query.length_cons]
    simp [Piece.text]
    omega
  | anyChild userId dirId =>
    obtain ⟨h₁,h₂⟩ := h
    have hu := int_length h₁
    have hid := int_length h₂
    simp only [query,Query.length_cons]
    simp [Piece.text]
    omega
  | deleteNode userId nodeId =>
    obtain ⟨h₁,h₂⟩ := h
    have hu := int_length h₁
    have hid := int_length h₂
    simp only [query,Query.length_cons]
    simp [Piece.text]
    omega
  | fileBySha256 sha256sum =>
    have hhash : sha256sum.length ≤ 64 := h
    simp only [query,Query.length_cons]
    simp [Piece.text]
    omega
  | insertFile sha256sum size =>
    obtain ⟨hhash,hl,hu⟩ := h
    have hsize := off_length hl hu
    simp only [query,Query.length_cons]
    simp [Piece.text]
    omega
  | addRefCount fileId =>
    have hid := int_length h
    simp only [query,Query.length_cons]
    simp [Piece.text]
    omega
  | subRefCount fileId =>
    have hid := int_length h
    simp only [query,Query.length_cons]
    simp [Piece.text]
    omega
  | refCount fileId =>
    have hid := int_length h
    simp only [query,Query.length_cons]
    simp [Piece.text]
    omega
  | deleteFile fileId =>
    have hid := int_length h
    simp only [query,Query.length_cons]
    simp [Piece.text]
    omega
  | fileInfoById fileId =>
    have hid := int_length h
    simp only [query,Query.length_cons]
    simp [Piece.text]
    omega
  | upsertSource fileId ip port =>
    obtain ⟨h₁,hip,hport⟩ := h
    have hid := int_length h₁
    simp only [query,Query.length_cons]
    simp [Piece.text]
    omega
  | listSources fileId =>
    have hid := int_length h
    simp only [query,Query.length_cons]
    simp [Piece.text]
    omega
  | deleteSources fileId =>
    have hid := int_length h
    simp only [query,Query.length_cons]
    simp [Piece.text]
    omega

theorem intact_iff (s : Statement) : s.query.Intact ↔
    s.query.text.length < s.query.size ∧ ∀ u ∈ s.query.values, plain '\'' u = true :=
  Query.intact_iff s.query_size s.query_wellFormed

end Statement

/-- Values without quotes and backslashes change no statement that fits. -/
theorem unquoted_arrives (s : Statement) (hfits : s.query.text.length < s.query.size)
    (h : ∀ u ∈ s.query.values, unquoted u = true) : s.query.Intact :=
  s.intact_iff.mpr ⟨hfits,fun u hu => plain_unquoted (h u hu)⟩

/-- A statement reaches the database as its template is meant exactly where it
fits and its values hold no quote, and no backslash but in front of `%` or `_`.
What comes in packets fits, except for long paths that are looked up. -/
theorem statement_arrives_iff (s : Statement) :
    (s.query.Intact ↔
      s.query.text.length < s.query.size ∧ ∀ u ∈ s.query.values, plain '\'' u = true) ∧
      (s.Packed → s.query.text.length < s.query.size) :=
  ⟨s.intact_iff,s.packed_fits⟩

/-- A backslash in front of `%` changes nothing, one in front of a letter does. -/
theorem kept_backslash_arrives :
    (Statement.nodeByPath 7 "/d/50\\%".toList).query.Intact ∧
      ¬(Statement.nodeByPath 7 "/d\\x".toList).query.Intact := by
  have hfits := (statement_arrives_iff (.nodeByPath 7 "/d/50\\%".toList)).2
    ⟨⟨by decide,by decide⟩,by decide⟩
  constructor
  · apply (statement_arrives_iff (.nodeByPath 7 "/d/50\\%".toList)).1.mpr
    refine ⟨hfits,fun u hu => ?_⟩
    obtain rfl : u = "/d/50\\%".toList := by
      simpa [Query.values,Statement.query,Piece.values] using hu
    decide
  · intro h
    have hplain := ((statement_arrives_iff _).1.mp h).2 "/d\\x".toList
      (by simp [Query.values,Statement.query,Piece.values])
    exact absurd hplain (by decide)

/-- A quote in the name of a login ends the literal, and the path of a long name
in a deep directory is cut. -/
theorem quoted_name_and_long_path_change_statement :
    (¬ ∀ data userName userPasswd : Text, data.length < cmdDataLen → '\x00' ∉ data →
      splitCredentials data = some (userName,userPasswd) →
        (Statement.userByName userName).query.Intact) ∧
    ¬ ∀ (ctx : ClientContext) (arg fullPath : Text), ctx.currentPath.length < 256 →
      arg.length < cmdDataLen → '\x00' ∉ arg →
      buildFullVirtualPath fullPathLen ctx arg = some fullPath →
        (Statement.fileInfoByPath ctx.userId fullPath).query.Intact := by
  constructor
  · intro h
    have hintact := h "x' OR 'a'='a/p".toList "x' OR 'a'='a".toList "p".toList (by decide)
      (by decide) (by decide)
    have hplain := ((Statement.intact_iff _).mp hintact).2 "x' OR 'a'='a".toList
      (by simp [Query.values,Statement.query,Piece.values])
    exact absurd hplain (by decide)
  · intro h
    have hintact := h ⟨1,(List.replicate 7 ('/'::List.replicate 29 'd')).flatten,7⟩
      (List.replicate 250 'a')
      ((List.replicate 7 ('/'::List.replicate 29 'd')).flatten ++ '/'::List.replicate 250 'a')
      (by decide +kernel) (by decide +kernel) (by decide +kernel) (by decide +kernel)
    have hfits := ((Statement.intact_iff _).mp hintact).1
    exact absurd hfits (by decide +kernel)

end WindCloud
