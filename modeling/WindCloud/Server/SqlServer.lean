import WindCloud.Server.Commands
import WindCloud.Server.Queries

/-!
# The database behind the statements

The database is sent texts. It executes the statement whose tokens it reads in a
text. That is the statement the server means when the text arrives intact, the
collation takes no other name for one in the statement, and the columns keep what
is entered.
-/

set_option autoImplicit false

namespace WindCloud
open CString Effect Function

/-- Which texts the collation takes for each other, and which ones a column of a
width keeps as they are. -/
structure TextColumns where
  same : Text → Text → Bool
  keeps : ℕ → Text → Bool

/-- What the caller of a statement reads from the reply to a text, and the tables
the text leaves. -/
abbrev Database : Type := (s : Statement) → Text → Db → s.Res × Db

namespace Statement

/-- The names in the tables that are taken for those of the statement are the same. -/
def told (cols : TextColumns) (db : Db) : Statement → Bool
  | userByName username | insertUser username _ _ =>
    db.users.all fun r => cols.same r.username username → r.username = username
  | nodeByPath userId path | fileInfoByPath userId path | createNode userId path _ _ _
  | createFileNode userId path _ _ _ =>
    db.paths.all fun r => r.userId = userId → cols.same r.path path → r.path = path
  | upsertSource fileId ip port =>
    db.fileSources.all fun r => r.fileId = fileId → cols.same r.serverIp ip →
      cols.same r.serverPort port → r.serverIp = ip ∧ r.serverPort = port
  | _ => true

/-- The columns keep the values that are entered. -/
def kept (cols : TextColumns) : Statement → Bool
  | insertUser username passwordHash salt =>
    cols.keeps 20 username && cols.keeps 64 passwordHash && cols.keeps 32 salt
  | createNode _ fullPath _ fileName _ | createFileNode _ fullPath _ fileName _ =>
    cols.keeps 255 fullPath && cols.keeps 30 fileName
  | upsertSource _ ip port => cols.keeps 64 ip && cols.keeps 16 port
  | _ => true

/-- What the database makes of the text is what the statement is meant to do. -/
structure Meant (cols : TextColumns) (db : Db) (s : Statement) : Prop where
  intact : s.query.Intact
  told : s.told cols db = true
  kept : s.kept cols = true

instance (cols : TextColumns) (db : Db) (s : Statement) : Decidable (s.Meant cols db) :=
  decidable_of_iff ((s.query.text.length < s.query.size ∧
      ∀ u ∈ s.query.values, plain '\'' u = true) ∧ s.told cols db = true ∧ s.kept cols = true)
    ⟨fun ⟨hi,ht,hk⟩ => ⟨s.intact_iff.mpr hi,ht,hk⟩,
      fun h => ⟨s.intact_iff.mp h.intact,h.told,h.kept⟩⟩

end Statement

/-- The documented behaviour: a text that reads as a template is executed as the
template says. -/
def Documented (cols : TextColumns) (d : Database) : Prop :=
  ∀ (s : Statement) (t : Text) (db : Db), lex t = some s.query.tokens →
    s.told cols db = true → s.kept cols = true → d s t db = s.exec db

def strictDatabase (cols : TextColumns) : Database := fun s t db =>
  if lex t = some s.query.tokens ∧ s.told cols db = true ∧ s.kept cols = true then s.exec db
  else (s.failed,db)

theorem strict_documented (cols : TextColumns) : Documented cols (strictDatabase cols) :=
  fun _ _ _ hread ht hk => if_pos ⟨hread,ht,hk⟩

section Execution

variable {ι : Type} [DecidableEq ι] (d : Database) (lib : Library)

/-- The operations, the database being sent the texts of the statements. -/
def executeSql : (o : Op) → ι → World ι → Choice → Option (o.Res × World ι)
  | .sql s, _, w, .ok => some ((d s s.query.sql w.db).1,{ w with db := (d s s.query.sql w.db).2 })
  | o, i, w, c => execute lib o i w c

def sqlServer (ι : Type) [DecidableEq ι] (d : Database) (lib : Library) :
    Machine Op Op.Res ι (World ι) Choice :=
  ⟨executeSql d lib⟩

/-- The operation, if it is a statement, is meant as it is read. -/
def Op.Meant (cols : TextColumns) (db : Db) : Op → Prop
  | .sql s => s.Meant cols db
  | _ => True

instance (cols : TextColumns) (db : Db) : (o : Op) → Decidable (o.Meant cols db)
  | .sql s => inferInstanceAs (Decidable (s.Meant cols db))
  | .storeDir | .configAddress | .stat _ | .openUpload _ | .openEmpty _ | .openRead _ | .fstat
  | .ftruncate _ | .mmap _ | .lseek _ | .write _ | .recvMapped _ _ | .close | .unlink _
  | .recvAuth | .recvFile | .recv _ | .send _ | .sendfile _ _ | .sendMapped _ _ | .time
  | .randBytes _ | .rand _ | .sha256 _ | .jwtEncode _ | .jwtDecode _ _ _ _
  | .ticketRegister _ _ | .ticketConsume _ _ | .overflow => .isTrue trivial

/-- Every operation that is permitted is meant as it is read. -/
def StatementsMeant (cols : TextColumns) (ok : Op → World ι → Choice → Prop) : Prop :=
  ∀ o w c, ok o w c → o.Meant cols w.db

variable {d lib} {cols : TextColumns} {ok : Op → World ι → Choice → Prop}

/-- On statements that are meant as they are read, the database executes them. -/
theorem sqlServer_agrees (hd : Documented cols d) (hm : StatementsMeant cols ok) :
    (sqlServer ι d lib).Agrees (server ι lib) ok := by
  intro o i w c hc
  cases o with
  | sql s =>
    cases c with
    | ok =>
      have h : s.Meant cols w.db := hm (.sql s) w .ok hc
      have hread : lex s.query.sql = some s.query.tokens := h.intact.2
      have hexec := hd s s.query.sql w.db hread h.told h.kept
      simp only [sqlServer,server,executeSql,execute,hexec]
    | fault | count | value | bytes => rfl
  | _ => rfl

end Execution

/-- The server with its database, with nothing else running, whose outcomes are checked. -/
abbrev checkedSqlServer (d : Database) (lib : Library) (check : Op → World Unit → Choice → Bool) :
    Machine Op Op.Res Unit (World Unit) Choice :=
  (sqlServer Unit d lib).restrict check

/-- Upper and lower case are taken for each other, and columns keep short texts of
one-byte characters. -/
def caseless : TextColumns where
  same a b := a.map Char.toLower = b.map Char.toLower
  keeps n t := t.length ≤ n && t.all fun c => c.toNat < 128

/-- The outcomes that `check` permits, of statements that are meant as they are read. -/
def understood {ι : Type} (cols : TextColumns) (check : Op → World ι → Choice → Bool) (o : Op)
    (w : World ι) (c : Choice) : Bool :=
  decide (o.Meant cols w.db) && check o w c

theorem understood_check {ι : Type} {cols : TextColumns} {check : Op → World ι → Choice → Bool}
    {o : Op} {w : World ι} {c : Choice} (h : understood cols check o w c = true) :
    check o w c = true :=
  (Bool.and_eq_true_iff.mp h).2

theorem understood_meant {ι : Type} (cols : TextColumns) (check : Op → World ι → Choice → Bool) :
    StatementsMeant cols fun o w c => understood cols check o w c = true :=
  fun _ _ _ h => of_decide_eq_true (Bool.and_eq_true_iff.mp h).1

theorem checkedSqlServer_eq {d : Database} {lib : Library} {check : Op → World Unit → Choice → Bool}
    {cols : TextColumns} (hd : Documented cols d) (hm : StatementsMeant cols (Checked check)) :
    checkedSqlServer d lib check = checkedServer lib check :=
  Machine.restrict_agrees (sqlServer_agrees hd hm)

end WindCloud
