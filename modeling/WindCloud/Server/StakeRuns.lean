import WindCloud.Server.Stakes
import WindCloud.Server.UploadFailures

/-!
# Counts of interleaved commands

Uploads, `touch` and `rm` of any users run interleaved, statement by statement.
The counts come out right at the end as long as no two commands are after the
same name at once and no file is released while another command refers to it.
-/

set_option autoImplicit false

namespace WindCloud
open CString Effect Function

namespace Stake

/-- The stake after an operation. -/
def note : (o : Op) → o.Res → Stake → ℕ → Stake
  | .sql (.fileBySha256 _), r, s, _ =>
    match s, r with
    | .entered id, _ => .entered id
    | _, some (id,_) => .found id
    | s, none => s
  | .sql (.insertFile _ _), r, s, next => if r then .entered next else s
  | .sql (.createFileNode _ _ _ _ id), r, s, _ =>
    match s with
    | .entered n => if r then .free else .entered n
    | _ => if r then .owing id else .free
  | .sql (.addRefCount _), r, s, _ => if r then .free else s
  | .sql (.nodeByPath userId path), some (node,_), _, _ => .located node userId path
  | .sql (.fileInfoByPath _ _), some (_,some id,0), .located node _ _, _ => .aimed node id
  | .sql (.deleteNode _ _), true, .aimed _ id, _ => .removing id
  | .sql (.subRefCount _), true, .removing id, _ => .counted id
  | .sql (.refCount _), r, .counted id, _ => if r = some 0 then .releasing id else .free
  | .sql (.deleteFile _), true, _, _ => .free
  | .openUpload _, _, .found _, _ => .free
  | .send _, _, s, _ => if s.settled then .free else s
  | _, _, s, _ => s

section Notes

variable {s : Stake} {o : Op} {r : o.Res} {n : ℕ}

theorem note_other (ho : o.isSql = false) (hs : s.settled = false) : note o r s n = s := by
  cases o with
  | sql t => cases ho
  | openUpload path => cases s <;> first | rfl | cases hs
  | send p => exact if_neg (by rw [hs]; exact Bool.false_ne_true)
  | _ => rfl

theorem note_quiet (ho : o.quiet = true) : note o r s n = s := by
  cases o <;> first | rfl | cases ho

theorem note_settled (ho : o.isSql = false) (hs : s.settled = true) :
    note o r s n = s ∨ note o r s n = .free := by
  cases o with
  | sql t => cases ho
  | openUpload path => cases s <;> first | exact .inl rfl | exact .inr rfl
  | send p => exact .inr (if_pos hs)
  | _ => exact .inl rfl

end Notes

end Stake

section Outlines

variable {ι : Type} [DecidableEq ι]

/-- Statements hold, and those of different executions keep apart: no path of a
new row is taken meanwhile, a path that is removed is there, a row is not found
between the reading of its count and its deletion, and its count is neither
lowered nor read while another execution is about to refer to it. -/
def Exclusive (i : ι) (o : Op) (x : World ι × (ι → Stake)) (c : Choice) : Prop :=
  match o with
  | .sql t => c ≠ .fault ∧
    match t with
    | .createFileNode userId path _ _ _ =>
      (∃ id, x.2 i = .entered id) → x.1.db.nodeAt userId path = none
    | .deleteNode userId node => ∃ q ∈ x.1.db.paths, q.id = node ∧ q.userId = userId
    | .fileBySha256 h => ∀ e, ((Statement.fileBySha256 h).exec x.1.db).1 = some e →
      ∀ j, x.2 j ≠ .releasing e.1
    | .subRefCount id => ∀ j, x.2 j ≠ .owing id
    | .refCount id => ∀ j, x.2 j ≠ .owing id ∧ x.2 j ≠ .found id
    | _ => True
  | _ => True

/-- The server with the stakes of all executions. -/
abbrev staked (ι : Type) [DecidableEq ι] (lib : Library) :
    Machine Op Op.Res ι (World ι × (ι → Stake)) Choice :=
  (server ι lib).recorded fun o r w => fun s => Stake.note o r s w.db.nextFile

abbrev sqlStaked (ι : Type) [DecidableEq ι] (d : Database) (lib : Library) :
    Machine Op Op.Res ι (World ι × (ι → Stake)) Choice :=
  (sqlServer ι d lib).recorded fun o r w => fun s => Stake.note o r s w.db.nextFile

theorem sqlStaked_agrees {d : Database} {lib : Library} {cols : TextColumns}
    (hd : Documented cols d) :
    (sqlStaked ι d lib).Agrees (staked ι lib) fun o x _ => o.Meant cols x.1.db :=
  recorded_agrees _ (sqlServer_agrees hd fun _ _ _ h => h)

/-- Statements that keep apart, and that are meant as they are read. -/
def ExclusiveMeant (cols : TextColumns) (i : ι) (o : Op) (x : World ι × (ι → Stake)) (c : Choice) :
    Prop :=
  Exclusive i o x c ∧ o.Meant cols x.1.db

variable [Fintype ι]

/-- The stakes are the recorded ones and balance the counts. -/
structure Reckoned (hash : ι → Text) (hello : ι → FilePacket) (Λ : ι → Stake)
    (x : World ι × (ι → Stake)) : Prop where
  stakes : x.2 = Λ
  hello : ∀ i, (x.1.node.conn i).hello = hello i
  tables : Reconciled hash Λ x.1.db

variable {lib : Library} {hash : ι → Text} {hello : ι → FilePacket} {i : ι} {α β : Type}

variable (lib hash hello i) in
abbrev Accounted (p : Server α) (Q : Stake → α → Prop) (s : Stake) : Prop :=
  Outline (staked ι lib) Exclusive (Reckoned hash hello) i p Q s

variable {Q : Stake → α → Prop} {s : Stake}

theorem accounted_op {o : Op} {f : o.Res → Server α}
    (h : ∀ Λ w c r w', Λ i = s → Reckoned hash hello Λ (w,Λ) → Exclusive i o (w,Λ) c →
      execute lib o i w c = some (r,w') →
      Reconciled hash (update Λ i (Stake.note o r s w.db.nextFile)) w'.db ∧
        Accounted lib hash hello i (f r) Q (Stake.note o r s w.db.nextFile)) :
    Accounted lib hash hello i (perform o >>= f) Q s := by
  rintro Λ ⟨w,Λ'⟩ c r ⟨w',Λ''⟩ hl hi hok hx
  obtain rfl : Λ' = Λ := hi.stakes
  obtain ⟨hx,hnote⟩ := recorded_exec hx
  dsimp only at hx hnote
  rw [hl] at hnote
  obtain ⟨htables,hf⟩ := h Λ' w c r w' hl hi hok hx
  refine ⟨_,⟨hnote,fun j => ?_,htables⟩,hf⟩
  by_cases hj : j = i
  · subst hj
    exact (execute_announced hx).2.trans (hi.hello j)
  · rw [execute_others hj hx]
    exact hi.hello j

theorem reconciled_settle {Λ : ι → Stake} {db : Db} (h : Reconciled hash Λ db)
    (hi : (Λ i).settled = true) (hs : s.settled = true)
    (hneeds : ∀ id, s.needs id = true → ∀ j, Λ j ≠ .releasing id)
    (hown : s.Holds (hash i) (update Λ i s) db) : Reconciled hash (update Λ i s) db := by
  refine reconciled_stake h (fun id => ?_) (fun id => ?_) (fun r _ hm => ?_) hneeds hown
  · rw [(Stake.settled_calm hs id).1,(Stake.settled_calm hi id).1]
  · rw [(Stake.settled_calm hs id).2.1,(Stake.settled_calm hi id).2.1]
  · rw [(Stake.settled_calm hi r.id).2.2] at hm
    cases hm

theorem reconciled_free {Λ : ι → Stake} {db : Db} (h : Reconciled hash Λ db)
    (hi : (Λ i).settled = true) : Reconciled hash (update Λ i .free) db :=
  reconciled_settle h hi rfl (fun _ hn => absurd hn Bool.false_ne_true) trivial

omit [DecidableEq ι] in
theorem reconciled_same {Λ : ι → Stake} {db : Db} [DecidableEq ι] (h : Reconciled hash Λ db)
    (hi : Λ i = s) : Reconciled hash (update Λ i s) db := by
  rw [← hi,update_eq_self]
  exact h

theorem accounted_quiet {o : Op} {f : o.Res → Server α} (ho : o.isSql = false)
    (hs : s.settled = false) (hf : ∀ r, Accounted lib hash hello i (f r) Q s) :
    Accounted lib hash hello i (perform o >>= f) Q s := by
  refine accounted_op fun Λ w c r w' hl hi _ hx => ?_
  rw [Stake.note_other ho hs,execute_db ho hx]
  exact ⟨reconciled_same hi.tables hl,hf r⟩

/-- Programs that may start with any settled stake. -/
abbrev AtRest (lib : Library) (hash : ι → Text) (hello : ι → FilePacket) (i : ι) (p : Server α)
    (Q : Stake → α → Prop) : Prop :=
  ∀ s, s.settled = true → Accounted lib hash hello i p Q s

theorem rest_perform {o : Op} {f : o.Res → Server α} (ho : o.isSql = false)
    (hf : ∀ r, AtRest lib hash hello i (f r) Q) :
    AtRest lib hash hello i (perform o >>= f) Q := by
  intro s hs
  refine accounted_op fun Λ w c r w' hl hi _ hx => ?_
  rw [execute_db ho hx]
  rcases Stake.note_settled (r := r) (n := w.db.nextFile) ho hs with he | he
  · rw [he]
    exact ⟨reconciled_same hi.tables hl,hf r s hs⟩
  · rw [he]
    exact ⟨reconciled_free hi.tables (by rw [hl]; exact hs),hf r .free rfl⟩

theorem rest_bind {p : Server α} {f : α → Server β} {Q : Stake → β → Prop}
    (hp : p.Uses fun o => o.isSql = false) (hf : ∀ a, AtRest lib hash hello i (f a) Q) :
    AtRest lib hash hello i (p >>= f) Q := by
  induction p with
  | ret a => exact hf a
  | op o k ih => exact rest_perform hp.1 fun r => ih r (hp.2 r)

theorem rest_uses {p : Server α} (hp : p.Uses fun o => o.isSql = false)
    (hQ : ∀ a s, s.settled = true → Q s a) : AtRest lib hash hello i p Q := by
  have h : AtRest lib hash hello i (p >>= Program.ret) Q := rest_bind hp fun a s hs => hQ a s hs
  rw [Program.bind_ret] at h
  exact h

theorem rest_find {h : Text} {f : Option (ℕ × ℤ) → Server α}
    (hnone : AtRest lib hash hello i (f none) Q)
    (hsome : ∀ id size, Accounted lib hash hello i (f (some (id,size))) Q (.found id)) :
    AtRest lib hash hello i (daoFileFindBySha256 h >>= f) Q := by
  intro s hs
  refine accounted_op (o := .sql (.fileBySha256 h)) fun Λ w c r w' hl hi hok hx => ?_
  rcases execute_sql hx with ⟨-,db,he,rfl⟩ | ⟨rfl,-⟩
  · have hdb : db = w.db := (congrArg Prod.snd he).symm.trans (Statement.exec_reads rfl w.db)
    have hr : ((Statement.fileBySha256 h).exec w.db).1 = r := congrArg Prod.fst he
    subst hdb
    rcases r with _ | ⟨id,size⟩
    · have hnote : Stake.note (.sql (.fileBySha256 h)) none s w.db.nextFile = s := by
        cases s <;> rfl
      rw [hnote]
      exact ⟨reconciled_same hi.tables hl,hnone s hs⟩
    · have hnote : Stake.note (.sql (.fileBySha256 h)) (some (id,size)) s w.db.nextFile =
          .found id := by
        cases s <;> first | rfl | cases hs
      rw [hnote]
      refine ⟨reconciled_settle hi.tables (by rw [hl]; exact hs) rfl ?_ ?_,hsome id size⟩
      · intro n hn j
        obtain rfl : id = n := of_decide_eq_true hn
        exact hok.2 _ hr j
      · simp only [Statement.exec] at hr
        split at hr
        · cases hr
        · obtain ⟨row,hrow,hrid⟩ := Option.map_eq_some_iff.mp hr
          exact ⟨row,(fileOf_some hrow).1,congrArg Prod.fst hrid⟩
  · exact absurd rfl hok.1

theorem accounted_sql {t : Statement} {f : t.Res → Server α} (h : ∀ Λ w, Λ i = s →
      Reckoned hash hello Λ (w,Λ) → Exclusive i (.sql t) (w,Λ) .ok →
      Reconciled hash (update Λ i (Stake.note (.sql t) (t.exec w.db).1 s w.db.nextFile))
        (t.exec w.db).2 ∧
      Accounted lib hash hello i (f (t.exec w.db).1) Q
        (Stake.note (.sql t) (t.exec w.db).1 s w.db.nextFile)) :
    Accounted lib hash hello i (sql t >>= f) Q s := by
  refine accounted_op (o := .sql t) fun Λ w c r w' hl hi hok hx => ?_
  rcases execute_sql hx with ⟨rfl,db,he,rfl⟩ | ⟨rfl,-⟩
  · obtain ⟨rfl,rfl⟩ := Prod.mk.inj he
    exact h Λ w hl hi hok
  · exact absurd rfl hok.1

theorem accounted_refind {f : Option (ℕ × ℤ) → Server α} (hh : Hex.IsHash (hash i)) {id : ℕ}
    (hf : ∀ size, Accounted lib hash hello i (f (some (id,size))) Q (.entered id)) :
    Accounted lib hash hello i (daoFileFindBySha256 (hash i) >>= f) Q (.entered id) := by
  refine accounted_sql fun Λ w hl hi _ => ?_
  rw [Statement.exec_reads rfl]
  have hst := hi.tables.stakes i
  rw [hl] at hst
  obtain ⟨r,hr,rfl,hsum⟩ := hst
  obtain ⟨bs,hb,hbs,he⟩ := Statement.exec_fileBySha256 hh w.db
  obtain rfl : r.sha256sum = bs :=
    Hex.hexLower_injective (hi.tables.keyed.cells r hr).2 (Hex.unhex_lt hb) (hsum.trans hbs.symm)
  rw [he,fileOf_mem hi.tables.keyed hr]
  exact ⟨reconciled_same hi.tables hl,hf r.size⟩

theorem rest_insert {f : Bool → Server α} (hh : Hex.IsHash (hash i)) (size : ℤ)
    (hfalse : AtRest lib hash hello i (f false) Q)
    (htrue : ∀ id, Accounted lib hash hello i (f true) Q (.entered id)) :
    AtRest lib hash hello i (sql (.insertFile (hash i) size) >>= f) Q := by
  intro s hs
  refine accounted_sql fun Λ w hl hi _ => ?_
  have hkeyed := keyed_exec hi.tables.keyed (.insertFile (hash i) size)
  obtain ⟨bs,-,hbs,he⟩ := Statement.exec_insertFile hh w.db size
  rw [he] at hkeyed ⊢
  split
  · exact ⟨reconciled_same hi.tables hl,hfalse s hs⟩
  · rename_i hfree
    rw [if_neg hfree] at hkeyed
    exact ⟨reconciled_enter hi.tables (by rw [hl]; exact hs) hkeyed hbs,htrue _⟩

theorem accounted_link {f : Bool → Server α} {userId : ℤ} {path fileName : Text}
    {parentId id : ℕ} (hfalse : Accounted lib hash hello i (f false) Q .free)
    (htrue : Accounted lib hash hello i (f true) Q (.owing id)) :
    Accounted lib hash hello i (daoCreateFileNode userId path parentId fileName id >>= f) Q
      (.found id) := by
  refine accounted_sql fun Λ w hl hi _ => ?_
  have hkeyed := keyed_exec hi.tables.keyed (.createFileNode userId path parentId fileName id)
  simp only [Statement.exec] at hkeyed ⊢
  split
  · exact ⟨reconciled_free hi.tables (by rw [hl]; rfl),hfalse⟩
  · rename_i hfree
    rw [if_neg hfree] at hkeyed
    have hst := hi.tables.stakes i
    rw [hl] at hst
    refine ⟨reconciled_link (s := .owing id) hi.tables (by rw [hl]; exact decide_eq_true rfl) hkeyed
      (fun n => ?_) (fun n hn => ?_) (fun n hn => (of_decide_eq_true hn).symm) hst,htrue⟩
    · rw [hl]
      by_cases hid : id = n
      · simp [Stake.debit,Stake.credit,hid]
      · simp [Stake.debit,Stake.credit,hid]
    · rw [hl] at hn
      cases hn

theorem accounted_linkNew {f : Bool → Server α} {userId : ℤ} {path fileName : Text}
    {parentId id : ℕ} (htrue : Accounted lib hash hello i (f true) Q .free) :
    Accounted lib hash hello i (daoCreateFileNode userId path parentId fileName id >>= f) Q
      (.entered id) := by
  refine accounted_sql fun Λ w hl hi hok => ?_
  have hkeyed := keyed_exec hi.tables.keyed (.createFileNode userId path parentId fileName id)
  have hfree : ¬(w.db.nodeAt userId path).isSome = true := by
    rw [hok.2 ⟨id,hl⟩]
    exact Bool.false_ne_true
  simp only [Statement.exec] at hkeyed ⊢
  rw [if_neg hfree] at hkeyed ⊢
  refine ⟨reconciled_link (s := .free) hi.tables (by rw [hl]; exact decide_eq_true rfl) hkeyed
    (fun n => ?_) (fun n hn => ?_) (fun _ hn => absurd hn Bool.false_ne_true) trivial,htrue⟩
  · rw [hl]
    by_cases hid : id = n
    · simp [Stake.debit,Stake.credit,hid]
    · simp [Stake.debit,Stake.credit,hid]
  · rw [hl] at hn
    exact (of_decide_eq_true hn).symm

theorem accounted_addRef {f : Bool → Server α} {id : ℕ}
    (hf : Accounted lib hash hello i (f true) Q .free) :
    Accounted lib hash hello i (daoFileAddRefCount id >>= f) Q (.owing id) :=
  accounted_sql fun _ _ hl hi _ => ⟨reconciled_addRef hi.tables hl,hf⟩

theorem accounted_aside {t : Statement} {f : t.Res → Server α}
    (ht : ∀ db, (t.exec db).2.paths = db.paths ∧ (t.exec db).2.files = db.files ∧
      (t.exec db).2.nextFile = db.nextFile ∧ (t.exec db).2.nextPath = db.nextPath)
    (hs : ∀ r n, Stake.note (.sql t) r s n = s) (hf : ∀ r, Accounted lib hash hello i (f r) Q s) :
    Accounted lib hash hello i (sql t >>= f) Q s := by
  refine accounted_sql fun Λ w hl hi _ => ?_
  rw [hs]
  refine ⟨?_,hf _⟩
  obtain ⟨hp,hfiles,hnf,hnp⟩ := ht w.db
  have hrefs : ∀ id, (t.exec w.db).2.references id = w.db.references id := by
    intro id
    rw [Db.references,hp,Db.references]
  have hst := hi.tables.stakes i
  have hsame : update Λ i s = Λ := by
    rw [← hl,update_eq_self]
  have hkept : ∀ j, (Λ j).Holds (hash j) Λ (t.exec w.db).2 := by
    intro j
    have hj := hi.tables.stakes j
    cases he : Λ j <;> rw [he] at hj <;>
      first | trivial | simpa only [Stake.Holds,hp,hfiles,hnf,hnp,hrefs] using hj
  rw [hsame]
  refine ⟨keyed_exec hi.tables.keyed t,?_,?_,?_,hkept⟩
  · rw [hp,hfiles]
    exact hi.tables.linked
  · intro r hr
    rw [hfiles] at hr
    rw [hrefs]
    exact hi.tables.counts r hr
  · intro r hr
    rw [hfiles] at hr
    rw [hrefs]
    exact hi.tables.minded r hr

theorem rest_locate {userId : ℤ} {path : Text} {f : Option (ℕ × ℕ) → Server α}
    (hnone : AtRest lib hash hello i (f none) Q)
    (hsome : ∀ node type,
      Accounted lib hash hello i (f (some (node,type))) Q (.located node userId path)) :
    AtRest lib hash hello i (sql (.nodeByPath userId path) >>= f) Q := by
  intro s hs
  refine accounted_sql fun Λ w hl hi _ => ?_
  simp only [Statement.exec]
  cases hnode : w.db.nodeAt userId path with
  | none => exact ⟨reconciled_same hi.tables hl,hnone s hs⟩
  | some r =>
    obtain ⟨hr,hu,hp⟩ := nodeAt_some hnode
    refine ⟨reconciled_settle hi.tables (by rw [hl]; exact hs) rfl
      (fun _ hn => absurd hn Bool.false_ne_true) ?_,hsome r.id r.type⟩
    refine ⟨hi.tables.keyed.pathIds.below r hr,fun q hq hid => ?_⟩
    obtain rfl := Rows.unique_inj hi.tables.keyed.pathIds.unique hq hr hid
    exact ⟨hu,hp⟩

theorem accounted_aim {userId : ℤ} {path : Text} {f : Option (ℕ × ℕ) → Server α} {node : ℕ}
    (hnone : Accounted lib hash hello i (f none) Q (.located node userId path))
    (hsome : ∀ n id, Accounted lib hash hello i (f (some (n,id))) Q (.aimed node id)) :
    Accounted lib hash hello i (daoGetFileInfoByPath userId path >>= f) Q
      (.located node userId path) := by
  unfold daoGetFileInfoByPath
  rw [bind_assoc]
  refine accounted_sql fun Λ w hl hi _ => ?_
  have hsame := reconciled_same hi.tables hl
  simp only [Statement.exec]
  cases hnode : w.db.nodeAt userId path with
  | none => exact ⟨hsame,hnone⟩
  | some r =>
    obtain ⟨hr,hu,hp⟩ := nodeAt_some hnode
    dsimp only [Option.map]
    cases hfile : r.fileId with
    | none => exact ⟨hsame,hnone⟩
    | some id =>
      cases htype : r.type with
      | succ k => exact ⟨hsame,hnone⟩
      | zero =>
        refine ⟨reconciled_settle hi.tables (by rw [hl]; rfl) rfl
          (fun _ hn => absurd hn Bool.false_ne_true) ?_,hsome r.id id⟩
        have hst := hi.tables.stakes i
        rw [hl] at hst
        refine ⟨hst.1,fun q hq hid => ?_⟩
        have hplace := hst.2 q hq hid
        obtain rfl := Rows.unique_inj hi.tables.keyed.places hq hr
          (Prod.ext (hplace.1.trans hu.symm) (hplace.2.trans hp.symm))
        exact ⟨htype,hfile⟩

theorem accounted_delete {userId : ℤ} {f : Bool → Server α} {node id : ℕ}
    (hf : Accounted lib hash hello i (f true) Q (.removing id)) :
    Accounted lib hash hello i (daoDeleteNode userId node >>= f) Q (.aimed node id) := by
  refine accounted_sql fun Λ w hl hi hok => ?_
  obtain ⟨q,hq,rfl,rfl⟩ := hok.2
  exact ⟨reconciled_dropPath hi.tables hl hq,hf⟩

theorem accounted_info {f : Option (Text × ℤ) → Server α} {id : ℕ}
    (hf : ∀ e, Accounted lib hash hello i (f (some e)) Q (.removing id)) :
    Accounted lib hash hello i (daoFileGetInfoById id >>= f) Q (.removing id) := by
  refine accounted_sql fun Λ w hl hi _ => ?_
  have hst := hi.tables.stakes i
  rw [hl] at hst
  obtain ⟨r,hr,rfl⟩ := hst
  simp only [Statement.exec,fileWithId_mem hi.tables.keyed hr]
  exact ⟨reconciled_same hi.tables hl,hf _⟩

theorem accounted_subRef {f : Bool → Server α} {id : ℕ}
    (hf : Accounted lib hash hello i (f true) Q (.counted id)) :
    Accounted lib hash hello i (daoFileSubRefCount id >>= f) Q (.removing id) :=
  accounted_sql fun _ _ hl hi hok => ⟨reconciled_subRef hi.tables hl hok.2,hf⟩

theorem accounted_refCount {f : Option ℕ → Server α} {id : ℕ}
    (hnone : Accounted lib hash hello i (f none) Q .free)
    (hzero : Accounted lib hash hello i (f (some 0)) Q (.releasing id))
    (hpos : ∀ k, Accounted lib hash hello i (f (some (k+1))) Q .free) :
    Accounted lib hash hello i (daoFileGetRefCount id >>= f) Q (.counted id) := by
  refine accounted_sql fun Λ w hl hi hok => ?_
  simp only [Statement.exec]
  cases hrow : w.db.fileWithId id with
  | none =>
    refine ⟨reconciled_used hi.tables hl fun r hr hid => ?_,hnone⟩
    have hfound := fileWithId_mem hi.tables.keyed hr
    rw [hid,hrow] at hfound
    cases hfound
  | some r =>
    obtain ⟨hr,rfl⟩ := fileWithId_some hrow
    dsimp only [Option.map]
    cases hcount : r.count with
    | zero => exact ⟨reconciled_unused hi.tables hr hl hcount hok.2,hzero⟩
    | succ k =>
      refine ⟨reconciled_used hi.tables hl fun x hx hid => ?_,hpos k⟩
      obtain rfl := Rows.unique_inj hi.tables.keyed.fileIds.unique hx hr hid
      omega

theorem accounted_dropFile {f : Bool → Server α} {id : ℕ}
    (hf : Accounted lib hash hello i (f true) Q .free) :
    Accounted lib hash hello i (daoFileDelete id >>= f) Q (.releasing id) :=
  accounted_sql fun _ _ hl hi _ => ⟨reconciled_dropFile hi.tables hl,hf⟩

theorem accounted_look {p : Server α} {f : α → Server β} {Q : Stake → β → Prop}
    (hp : p.Uses fun o => o.quiet = true) (hf : ∀ a, Accounted lib hash hello i (f a) Q s) :
    Accounted lib hash hello i (p >>= f) Q s := by
  induction p with
  | ret a => exact hf a
  | op o k ih =>
    refine accounted_op fun Λ w c r w' hl hi _ hx => ?_
    rw [execute_quiet hp.1 hx,Stake.note_quiet hp.1]
    exact ⟨reconciled_same hi.tables hl,ih r (hp.2 r)⟩

theorem accounted_bind {p : Server α} {f : α → Server β} {Q : Stake → β → Prop}
    (hp : p.Uses fun o => o.isSql = false) (hs : s.settled = false)
    (hf : ∀ a, Accounted lib hash hello i (f a) Q s) :
    Accounted lib hash hello i (p >>= f) Q s := by
  induction p with
  | ret a => exact hf a
  | op o k ih => exact accounted_quiet hp.1 hs fun r => ih r (hp.2 r)

theorem accounted_ret {p : Server α} (h : Accounted lib hash hello i (p >>= Program.ret) Q s) :
    Accounted lib hash hello i p Q s := by
  rw [Program.bind_ret] at h
  exact h

theorem accounted_strcpy {size : ℕ} {t : Text} {f : Text → Server α}
    (h : Accounted lib hash hello i (f t) Q s) :
    Accounted lib hash hello i (strcpy size t >>= f) Q s := by
  unfold strcpy
  split
  · exact h
  · exact fun _ _ _ r _ _ _ _ _ => r.elim

end Outlines

section Commands

variable {ι : Type} [DecidableEq ι] [Fintype ι] {lib : Library} {hash : ι → Text}
  {hello : ι → FilePacket} {i : ι} {s : Stake} {ctx : ClientContext} {path fileName : Text}

/-- The stake at the end of a command or of a part of it. -/
abbrev Laid {α : Type} (s : Stake) (_ : α) : Prop := s.settled = true

theorem rest_reply (msg : Text) : AtRest lib hash hello i (sendMsg msg) Laid :=
  rest_uses ⟨rfl,fun _ => trivial⟩ fun _ _ hs => hs

theorem rest_reply_close (msg : Text) :
    AtRest lib hash hello i (sendMsg msg >>= fun _ => close) Laid :=
  rest_uses ⟨rfl,fun _ => ⟨rfl,fun _ => trivial⟩⟩ fun _ _ hs => hs

theorem accounted_release (id : ℕ) :
    Accounted lib hash hello i (releaseFileEntityIfUnused id) Laid (.removing id) := by
  refine accounted_info fun e => accounted_subRef ?_
  refine accounted_refCount rfl ?_ fun k => rfl
  refine accounted_bind (unlinkStoreFile_uses (fun o => o.isSql = false) rfl (fun _ => rfl) e.1) rfl
    fun _ => ?_
  have hdrop : Accounted lib hash hello i (daoFileDelete id) Laid (.releasing id) :=
    accounted_ret (accounted_dropFile rfl)
  unfold daoFileSourceDeleteByFileId
  split
  · exact hdrop
  · exact accounted_aside (fun _ => ⟨rfl,rfl,rfl,rfl⟩) (fun _ _ => rfl) fun _ => hdrop

theorem rest_rm (ctx : ClientContext) (arg : Text) :
    AtRest lib hash hello i (handleRm ctx arg) Laid := by
  intro s hs
  unfold handleRm
  split
  · exact rest_reply _ s hs
  refine accounted_strcpy ?_
  unfold daoGetNodeByPath
  split
  · exact rest_reply _ s hs
  refine rest_locate (rest_reply _) (fun node type => ?_) s hs
  dsimp only
  split
  · exact rest_reply _ _ rfl
  refine accounted_aim (rest_reply _ _ rfl) fun n id => ?_
  have hremove : Accounted lib hash hello i (removeFile ctx node id) Laid (.aimed node id) :=
    accounted_delete (accounted_release id)
  refine outline_bind (outline_mono ?_ hremove)
  intro s' done hs'
  cases done <;> exact rest_reply _ s' hs'

theorem accounted_reuse (id : ℕ) :
    Accounted lib hash hello i (reuseEmptyFile ctx path fileName id) Laid (.found id) :=
  accounted_link rfl (accounted_ret (accounted_addRef rfl))

theorem rest_createEmptyFile (hh : hash i = emptyFileSha256) :
    AtRest lib hash hello i (createEmptyFileNode ctx path fileName) Laid := by
  refine rest_bind (Program.uses_mono hushed_isSql hush_ensure) fun ready => ?_
  cases ready with
  | false => exact fun _ hs => hs
  | true =>
    refine rest_find ?_ fun id _ => accounted_reuse id
    unfold daoFileInsert
    rw [bind_assoc,← hh]
    refine rest_insert (by rw [hh]; exact emptyFile_hash) 0 ?_ fun id => ?_
    · rw [hh]
      exact rest_find (fun _ hs => hs) fun id _ => accounted_reuse id
    · rw [if_pos rfl,bind_assoc]
      refine accounted_refind (by rw [hh]; exact emptyFile_hash) fun _ => ?_
      exact accounted_linkNew rfl

theorem rest_touch (hh : hash i = emptyFileSha256) (ctx : ClientContext) (arg : Text) :
    AtRest lib hash hello i (handleTouch ctx arg) Laid := by
  intro s hs
  unfold handleTouch
  split
  · exact rest_reply _ s hs
  refine accounted_strcpy (accounted_strcpy ?_)
  split
  · have hcreate : AtRest lib hash hello i (createEmptyFileNode ctx (absPath ctx.currentPath arg)
        (baseName (absPath ctx.currentPath arg)) >>= fun r =>
          if r = true then sendMsg "创建文件成功".toList
          else sendMsg "创建文件失败，服务器内部错误".toList) Laid := by
      intro s hs
      refine outline_bind (outline_mono ?_ (rest_createEmptyFile hh s hs))
      intro s' done hs'
      cases done <;> exact rest_reply _ s' hs'
    unfold daoGetNodeByPath
    split
    · exact rest_reply _ s hs
    · exact rest_locate hcreate (fun _ _ => rest_reply _ _ rfl) s hs
  · exact rest_reply _ s hs

theorem rest_registerSource (fileId : ℕ) :
    AtRest lib hash hello i (registerSource fileId) Laid := by
  refine rest_bind (getCurrentServerAddress_uses (fun o => o.isSql = false) rfl _ _) fun r => ?_
  rcases r with _ | ⟨ip,port⟩
  · exact fun _ hs => hs
  · unfold daoFileSourceUpsert
    dsimp only
    split
    · exact fun _ hs => hs
    · refine fun s hs => accounted_ret (accounted_aside (fun db => ?_) (fun _ _ => rfl) fun _ => hs)
      simp only [Statement.exec,Db.putSource]
      split <;> exact ⟨rfl,rfl,rfl,rfl⟩

theorem accounted_relink (id : ℕ) :
    Accounted lib hash hello i (createUserFileLink ctx path fileName id true) Laid (.found id) :=
  accounted_link rfl (accounted_ret (accounted_addRef rfl))

theorem accounted_upload (id : ℕ) :
    Accounted lib hash hello i (linkUpload ctx path fileName id true) Laid (.found id) := by
  refine outline_bind (outline_mono ?_ (accounted_relink id))
  intro s' done hs'
  cases done with
  | false => exact hs'
  | true => exact rest_registerSource id s' hs'

theorem accounted_uploadNew (id : ℕ) :
    Accounted lib hash hello i (linkUpload ctx path fileName id false) Laid (.entered id) := by
  unfold linkUpload createUserFileLink
  rw [bind_assoc]
  exact accounted_linkNew (rest_registerSource id .free rfl)

theorem rest_dbWork (hh : Hex.IsHash (hash i)) (size : ℤ) :
    AtRest lib hash hello i (finishUploadDbWork ctx path fileName (hash i) size) Laid := by
  unfold finishUploadDbWork daoFileInsert
  rw [bind_assoc]
  refine rest_insert hh size ?_ fun id => ?_
  · exact rest_find (fun _ hs => hs) fun id _ => accounted_upload id
  · rw [if_pos rfl,bind_assoc]
    exact accounted_refind hh fun _ => accounted_uploadNew id

theorem rest_content (hh : Hex.IsHash (hash i)) {arg : Text} {packet : FilePacket}
    (hp : packet.hash = hash i) :
    AtRest lib hash hello i (uploadContent ctx arg path fileName packet) Laid := by
  refine upload_walk (P := fun p => AtRest lib hash hello i p Laid)
    (fun p f hp hf => rest_bind (Program.uses_mono hushed_isSql hp) hf)
    (fun msg _ => ⟨rest_reply msg,rest_reply_close msg⟩)
    (rest_uses ⟨rfl,fun _ => trivial⟩ fun _ _ hs => hs) ?_
  intro s hs
  unfold completeUpload
  rw [hp]
  refine outline_bind (outline_mono ?_ (rest_dbWork hh packet.fileSize s hs))
  intro s' done hs'
  cases done <;> exact rest_reply_close _ s' hs'

theorem accounted_instant {arg : Text} {packet : FilePacket} (id : ℕ) :
    Accounted lib hash hello i (instantUpload ctx arg path fileName packet id) Laid
      (.found id) := by
  have hsend : AtRest lib hash hello i
      (sendFilePacket (initFilePacket .puts arg packet.fileSize 0 (some packet.hash)) >>=
        fun _ => pure ()) Laid := rest_uses ⟨rfl,fun _ => trivial⟩ fun _ _ hs => hs
  refine outline_bind (outline_mono ?_ (accounted_relink id))
  intro s' done hs'
  cases done with
  | false => exact rest_reply _ s' hs'
  | true => exact hsend s' hs'

theorem rest_store (hh : Hex.IsHash (hash i)) {arg : Text} {packet : FilePacket}
    (hp : packet.hash = hash i) :
    AtRest lib hash hello i (storeContent ctx arg path fileName packet) Laid := by
  refine rest_find (rest_content hh hp) fun id size => ?_
  refine accounted_look (checkStoreFileReady_uses (fun o => o.quiet = true) rfl (fun _ => rfl) _ _)
    fun r => ?_
  rcases r with _ | _ | _
  · exact rest_reply _ _ rfl
  · exact rest_content hh hp _ rfl
  · exact accounted_instant id

theorem rest_puts (hh : Hex.IsHash (hash i)) (hp : (hello i).hash = hash i) (ctx : ClientContext)
    (arg : Text) : AtRest lib hash hello i (handlePuts ctx arg) Laid := by
  intro s hs
  refine accounted_op (o := .recvFile) fun Λ w c r w' hl hi _ hx => ?_
  obtain ⟨hr,rfl⟩ := execute_recvFile hx
  refine ⟨reconciled_same hi.tables hl,?_⟩
  have hreply : ∀ msg, AtRest lib hash hello i (sendMsg msg) Laid := rest_reply
  rcases hr with rfl | rfl
  · rw [hi.hello i]
    dsimp only [Stake.note]
    cases hpath : buildFullVirtualPath fullPathLen ctx arg with
    | none => exact hreply _ s hs
    | some fullPath =>
      have hroot := fullVirtualPath_ne_root hpath
      refine accounted_strcpy ?_
      split
      · unfold daoGetNodeByPath
        rw [if_neg hroot]
        refine rest_locate ?_ (fun _ _ => ?_) s hs
        · dsimp only
          split
          · exact hreply _
          · exact rest_store hh hp
        · refine rest_uses ?_ (fun _ _ hs => hs) _ rfl
          exact ⟨rfl,fun _ => ⟨rfl,fun _ => trivial⟩⟩
      · exact hreply _ s hs
  · exact hreply _ s hs

end Commands

/-- The hash an execution may enter. -/
def Edit.hash (hello : FilePacket) : Edit → Text
  | .puts _ => hello.hash
  | .touch _ | .rm _ => emptyFileSha256

section Runs

variable {ι : Type} [DecidableEq ι] [Fintype ι] {hash : ι → Text} {Λ : ι → Stake} {db : Db}

omit [DecidableEq ι] in
theorem reconciled_start (h : db.Consistent) : Reconciled hash (fun _ => .free) db where
  keyed := h.keyed
  linked := h.counted.linked
  counts r hr := by
    rw [(tally_zero _ (Stake.debit r.id)).mpr fun _ => rfl,
      (tally_zero _ (Stake.credit r.id)).mpr fun _ => rfl]
    exact h.counted.counts r hr
  minded r hr := .inl (references_positive.mpr (h.counted.used r hr))
  stakes _ := trivial

omit [DecidableEq ι] in
theorem reconciled_counted (h : Reconciled hash Λ db) (hs : ∀ i, (Λ i).settled = true) :
    db.Counted where
  counts r hr := by
    have hcount := h.counts r hr
    rw [(tally_zero Λ _).mpr fun i => (Stake.settled_calm (hs i) r.id).1,
      (tally_zero Λ _).mpr fun i => (Stake.settled_calm (hs i) r.id).2.1] at hcount
    exact hcount
  linked := h.linked
  used r hr := by
    rcases h.minded r hr with hp | ⟨i,hi⟩
    · exact references_positive.mp hp
    · exact absurd ((Stake.settled_calm (hs i) r.id).2.2.symm.trans hi) Bool.false_ne_true

theorem rest_edit {lib : Library} {hello : ι → FilePacket} {i : ι} (e : Edit)
    (hash_eq : hash i = e.hash (hello i)) (hh : Hex.IsHash (hash i)) (ctx : ClientContext) :
    AtRest lib hash hello i (e.program ctx) Laid := by
  cases e with
  | puts arg => exact rest_puts hh hash_eq.symm ctx arg
  | touch arg => exact rest_touch hash_eq ctx arg
  | rm arg => exact rest_rm ctx arg

end Runs

namespace SharedEmptyFile

def tables : Db :=
  (Db.empty.addFile emptyFileBytes 0).addPath 2 "/a".toList (some 1) 0 "a".toList 0

theorem consistent : tables.Consistent where
  keyed := keyed_addPath (keyed_addFile empty_keyed rfl ⟨rfl,by decide⟩) rfl
  counted := counted_newReference empty_keyed empty_counted _ _ _ _ _ _

def world : World Bool := { TwoUploads.world Bool with db := tables }

/-- The first user makes an empty file while the second one removes theirs. -/
def edits : Bool → Edit
  | false => .touch "b".toList
  | true => .rm "a".toList

def contexts : Bool → ClientContext
  | false => ⟨1,"/".toList,0⟩
  | true => ⟨2,"/".toList,0⟩

def start : Pool Op Op.Res Bool (World Bool × (Bool → Stake)) Unit :=
  ⟨fun i => (edits i).program (contexts i),(world,fun _ => .free)⟩

def schedule : List (Bool × Choice) :=
  [true,true,false,false,false,false,true,true,false,false,true,true,true,false].map (·,.ok)

def releases : Stake → Bool
  | .releasing _ => true
  | _ => false

def apart (_ : Bool) (o : Op) (x : World Bool × (Bool → Stake)) (c : Choice) : Bool :=
  decide (c ≠ .fault) && decide (o.Meant caseless x.1.db) &&
    match o with
    | .sql (.createFileNode userId path _ _ _) => (x.1.db.nodeAt userId path).isNone
    | .sql (.deleteNode userId node) =>
      x.1.db.paths.any fun q => decide (q.id = node ∧ q.userId = userId)
    | .sql (.fileBySha256 _) => decide (∀ j : Bool, releases (x.2 j) = false)
    | .sql (.subRefCount id) | .sql (.refCount id) =>
      decide (∀ j : Bool, x.2 j ≠ .owing id ∧ x.2 j ≠ .found id)
    | _ => true

theorem apart_exclusive (i : Bool) (o : Op) (x : World Bool × (Bool → Stake)) (c : Choice)
    (h : apart i o x c = true) : ExclusiveMeant caseless i o x c := by
  obtain ⟨hplain,ho⟩ := Bool.and_eq_true_iff.mp h
  obtain ⟨hc,hmeant⟩ := Bool.and_eq_true_iff.mp hplain
  refine ⟨?_,of_decide_eq_true hmeant⟩
  cases o with
  | sql t =>
    refine ⟨of_decide_eq_true hc,?_⟩
    cases t with
    | createFileNode userId path parentId fileName fileId =>
      exact fun _ => Option.isNone_iff_eq_none.mp ho
    | deleteNode userId node =>
      obtain ⟨q,hq,hd⟩ := List.any_eq_true.mp ho
      exact ⟨q,hq,of_decide_eq_true hd⟩
    | fileBySha256 h =>
      intro e _ j hj
      have hnone := of_decide_eq_true ho j
      rw [hj] at hnone
      cases hnone
    | subRefCount id => exact fun j => (of_decide_eq_true ho j).1
    | refCount id => exact of_decide_eq_true ho
    | _ => trivial
  | _ => trivial

def ended : Server Unit → Bool
  | .ret _ => true
  | .op _ _ => false

theorem ended_ret {p : Server Unit} (h : ended p = true) : p = .ret () := by
  cases p with
  | ret a => rfl
  | op o k => cases h

end SharedEmptyFile

end WindCloud
