import WindCloud.Lib.Shelf
import WindCloud.Server.StoreRuns

/-!
# The files of the users

To its users the server is a shelf of directories and files, each under a user
and a path. The tables have the hash of a file in place of its content. Every
command that changes the tables puts one entry there or takes one away.
-/

set_option autoImplicit false

namespace WindCloud
open CString Effect Function Shelf

inductive Entry where
  | dir
  | file (c : Content)
  deriving DecidableEq, Repr

def Entry.isDir : Entry → Bool
  | .dir => true
  | .file _ => false

/-- The user and the path of an entry. -/
abbrev Place := ℤ × Text

/-- What a place holds, read from the tables and the store. -/
def World.drive {ι : Type} (w : World ι) (n : Place) : Option Entry :=
  (w.db.nodeAt n.1 n.2).bind fun p =>
    if p.type = 0 then
      ((p.fileId.bind w.db.fileWithId).bind fun r => w.node.store.read
        (storePath w.node.storeDir (Hex.hexLower r.sha256sum))).map .file
    else some .dir

/-- A directory, or a file by its hash. -/
abbrev Label := Option Text

/-- What a place holds, as the tables have it. -/
def Db.label (db : Db) (n : Place) : Option Label :=
  (db.nodeAt n.1 n.2).bind fun p =>
    if p.type = 0 then (p.fileId.bind db.fileWithId).map fun r => some (Hex.hexLower r.sha256sum)
    else some none

def Label.entry (content : Text → Content) : Label → Entry
  | none => .dir
  | some h => .file (content h)

abbrev Change := Deed Place Label Bool

/-- The change a command makes when it makes one. -/
def CmdType.change (ctx : ClientContext) (data : Text) : CmdType → Option Change
  | .mkdir => some (.put (ctx.userId,absPath ctx.currentPath data) none)
  | .touch => some (.put (ctx.userId,absPath ctx.currentPath data) (some emptyFileSha256))
  | .rm => some (.take (ctx.userId,absPath ctx.currentPath data) false)
  | .rmdir => some (.take (ctx.userId,absPath ctx.currentPath data) true)
  | _ => none

/-- From one state of the tables to the next the change is made, or nothing. -/
def Changed (change : Option Change) (db db' : Db) : Prop :=
  db'.label = db.label ∨ ∃ d, change = some d ∧ enact Option.isNone db.label d = some db'.label

section Views

variable {ι : Type} {w : World ι} {content : Text → Content}

theorem entry_isDir (content : Text → Content) (l : Label) :
    (l.entry content).isDir = Option.isNone l := by
  cases l <;> rfl

theorem drive_label (hw : Whole content w) :
    w.drive = fun n => (w.db.label n).map (Label.entry content) := by
  funext n
  unfold World.drive Db.label
  cases w.db.nodeAt n.1 n.2 with
  | none => rfl
  | some p =>
    simp only [Option.bind_some]
    split
    · cases hr : p.fileId.bind w.db.fileWithId with
      | none => rfl
      | some r =>
        obtain ⟨id,-,hid⟩ := Option.bind_eq_some_iff.mp hr
        simp [hw.full r (fileWithId_some hid).1,Label.entry]
    · rfl

/-- A change of the tables over whole stores is one of the drive. -/
theorem changed_drive {w' : World ι} {change : Option Change} (hw : Whole content w)
    (hw' : Whole content w') (h : Changed change w.db w'.db) :
    w'.drive = w.drive ∨ ∃ d, change.map (Deed.map (Label.entry content)) = some d ∧
      enact Entry.isDir w.drive d = some w'.drive := by
  rw [drive_label hw,drive_label hw']
  rcases h with hsame | ⟨d,rfl,hp⟩
  · exact .inl (by rw [hsame])
  · exact .inr ⟨_,rfl,enact_map (entry_isDir content) hp⟩

end Views

section Nodes

variable {db db' : Db}

theorem nodeAt_addPath {userId : ℤ} {path : Text} (h : db.nodeAt userId path = none)
    (fileId : Option ℕ) (parentId : ℕ) (fileName : Text) (type : ℕ) (u : ℤ) (p : Text) :
    (db.addPath userId path fileId parentId fileName type).nodeAt u p =
      if u = userId ∧ p = path then some ⟨db.nextPath,userId,path,fileId,parentId,fileName,type⟩
      else db.nodeAt u p := by
  unfold Db.nodeAt
  rw [addPath_paths,List.find?_append]
  split
  · rename_i he
    obtain ⟨rfl,rfl⟩ := he
    have hnone : db.paths.find? (fun r => decide (r.userId = u ∧ r.path = p)) = none := h
    rw [hnone]
    simp
  · rename_i he
    have hnew : List.find? (fun r : PathRow => decide (r.userId = u ∧ r.path = p))
        [⟨db.nextPath,userId,path,fileId,parentId,fileName,type⟩] = none := by
      simp only [List.find?_cons,List.find?_nil]
      have hf : decide (userId = u ∧ path = p) = false :=
        decide_eq_false fun hc => he ⟨hc.1.symm,hc.2.symm⟩
      rw [hf]
    rw [hnew,Option.or_none]

theorem nodeAt_dropPath (hk : db.Keyed) {r : PathRow} (hr : r ∈ db.paths) (u : ℤ) (p : Text) :
    (db.dropPath r.userId r.id).nodeAt u p =
      if u = r.userId ∧ p = r.path then none else db.nodeAt u p := by
  have hk' := keyed_dropPath hk r.userId r.id
  have hmem : ∀ x, x ∈ (db.dropPath r.userId r.id).paths ↔ x ∈ db.paths ∧ x ≠ r := by
    intro x
    constructor
    · intro hx
      obtain ⟨hx,hne⟩ := List.mem_filter.mp hx
      refine ⟨hx,?_⟩
      rintro rfl
      simp at hne
    · rintro ⟨hx,hne⟩
      refine List.mem_filter.mpr ⟨hx,?_⟩
      have hid : x.id ≠ r.id := fun hid => hne (Rows.unique_inj hk.pathIds.unique hx hr hid)
      simp [hid]
  split
  · rename_i he
    obtain ⟨rfl,rfl⟩ := he
    refine nodeAt_none.mpr fun x hx hat => ?_
    obtain ⟨hx,hne⟩ := (hmem x).mp hx
    exact hne (Rows.unique_inj hk.places hx hr (Prod.ext hat.1 hat.2))
  · rename_i hne
    cases hp : db.nodeAt u p with
    | none =>
      refine nodeAt_none.mpr fun x hx hat => ?_
      exact nodeAt_none.mp hp x ((hmem x).mp hx).1 hat
    | some x =>
      obtain ⟨hx,rfl,rfl⟩ := nodeAt_some hp
      refine nodeAt_mem hk' ((hmem x).mpr ⟨hx,?_⟩)
      rintro rfl
      exact hne ⟨rfl,rfl⟩

/-- A file's row keeps its hash as long as it has its number. -/
def FilesFrom (db db' : Db) : Prop :=
  ∀ x ∈ db'.files, (∃ y ∈ db.files, y.id = x.id ∧ y.sha256sum = x.sha256sum) ∨ db.nextFile ≤ x.id

theorem label_same (h : db.Consistent) (h' : db'.Consistent) (hf : FilesFrom db db') {n : Place}
    (hn : db'.nodeAt n.1 n.2 = db.nodeAt n.1 n.2) : db'.label n = db.label n := by
  unfold Db.label
  rw [hn]
  cases hp : db.nodeAt n.1 n.2 with
  | none => rfl
  | some p =>
    simp only [Option.bind_some]
    by_cases ht : p.type = 0
    · rw [if_pos ht,if_pos ht]
      obtain ⟨r,hr,hid⟩ := h.counted.linked p (nodeAt_some hp).1 ht
      obtain ⟨r',hr',hid'⟩ := h'.counted.linked p (nodeAt_some (hn.trans hp)).1 ht
      have hsame : r'.id = r.id := Option.some.inj (hid'.symm.trans hid)
      have hrow : p.fileId.bind db.fileWithId = some r := by
        rw [hid]
        exact fileWithId_mem h.keyed hr
      have hrow' : p.fileId.bind db'.fileWithId = some r' := by
        rw [hid']
        exact fileWithId_mem h'.keyed hr'
      rw [hrow,hrow']
      rcases hf r' hr' with ⟨y,hy,hyid,hsum⟩ | hnew
      · obtain rfl := Rows.unique_inj h.keyed.fileIds.unique hy hr (hyid.trans hsame)
        rw [Option.map_some,Option.map_some,hsum]
      · have hlt := h.keyed.fileIds.below r hr
        omega
    · rw [if_neg ht,if_neg ht]

theorem label_file (h : db.Keyed) {n : Place} {p : PathRow} (hp : db.nodeAt n.1 n.2 = some p)
    (ht : p.type = 0) {r : FileRow} (hr : r ∈ db.files) (hid : p.fileId = some r.id) :
    db.label n = some (some (Hex.hexLower r.sha256sum)) := by
  have hrow : p.fileId.bind db.fileWithId = some r := by
    rw [hid]
    exact fileWithId_mem h hr
  unfold Db.label
  rw [hp,Option.bind_some,if_pos ht,hrow,Option.map_some]

theorem label_put (h : db.Consistent) (h' : db'.Consistent) (hf : FilesFrom db db') {n : Place}
    {l : Label} (hfree : db.nodeAt n.1 n.2 = none) (hnew : db'.label n = some l)
    (hother : ∀ m : Place, m ≠ n → db'.nodeAt m.1 m.2 = db.nodeAt m.1 m.2) :
    enact Option.isNone db.label (.put n l) = some db'.label := by
  have hnone : db.label n = none := by
    rw [Db.label,hfree]
    rfl
  rw [enact_free hnone]
  congr 1
  funext m
  by_cases hm : m = n
  · rw [hm,update_self,hnew]
  · rw [update_of_ne hm]
    exact (label_same h h' hf (hother m hm)).symm

theorem label_take (h : db.Consistent) (h' : db'.Consistent) (hf : FilesFrom db db') {n : Place}
    {k : Bool} (hkind : (db.label n).map Option.isNone = some k)
    (hgone : db'.nodeAt n.1 n.2 = none)
    (hother : ∀ m : Place, m ≠ n → db'.nodeAt m.1 m.2 = db.nodeAt m.1 m.2) :
    enact Option.isNone db.label (.take n k) = some db'.label := by
  rw [enact_held hkind]
  congr 1
  funext m
  by_cases hm : m = n
  · rw [hm,update_self,Db.label,hgone]
    rfl
  · rw [update_of_ne hm]
    exact (label_same h h' hf (hother m hm)).symm

end Nodes

end WindCloud
