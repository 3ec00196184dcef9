import WindCloud.Server.SeatRuns

/-!
# The tree in the rows of nodes

A row stores its place three times: as a path, as the number of its directory
and as a name. The three agree when each row lies directly under the root or
under the directory it names.
-/

set_option autoImplicit false

namespace WindCloud
open CString Effect Function Runs

def Below (path lower : Text) : Prop := ∃ rest, lower = path ++ '/'::rest

namespace Db

/-- These columns put a node under the root, or under a directory of the user. -/
def Place (db : Db) (userId : ℤ) (path : Text) (parentId : ℕ) (fileName : Text) : Prop :=
  (parentId = 0 ∧ path = '/'::fileName) ∨
    ∃ p ∈ db.paths, p.id = parentId ∧ p.userId = userId ∧ p.type = 1 ∧ path = p.path ++ '/'::fileName

def Placed (db : Db) : Prop := ∀ r ∈ db.paths, db.Place r.userId r.path r.parentId r.fileName

/-- The rows of nodes are a tree with plain names. -/
structure Tree (db : Db) : Prop where
  keyed : db.Keyed
  placed : db.Placed
  named : ∀ r ∈ db.paths, r.fileName ≠ []
  plain : ∀ r ∈ db.paths, '/' ∉ r.fileName

end Db

section Rows

variable {db db' : Db} {userId : ℤ} {path fileName : Text} {parentId : ℕ}

theorem baseName_plain (path : Text) : '/' ∉ baseName path := by
  unfold baseName
  split
  · rename_i h
    exact splitLast_none.mp h
  · rename_i h
    exact (splitLast_some.mp h).2

theorem place_kept (h : db.Place userId path parentId fileName)
    (hdirs : ∀ p ∈ db.paths, p.type = 1 → p.userId = userId → p.id = parentId → p ∈ db'.paths) :
    db'.Place userId path parentId fileName := by
  rcases h with hroot | ⟨p,hp,hid,hu,ht,hpath⟩
  · exact .inl hroot
  · exact .inr ⟨p,hdirs p hp ht hu hid,hid,hu,ht,hpath⟩

theorem place_ne_nil (h : db.Place userId path parentId fileName) : path ≠ [] := by
  rcases h with ⟨-,rfl⟩ | ⟨p,-,-,-,-,rfl⟩ <;> simp

theorem below_split {p q name : Text} (hname : '/' ∉ name) (h : Below q (p ++ '/'::name)) :
    p = q ∨ Below q p := by
  obtain ⟨rest,he⟩ := h
  have hlast : splitLast '/' (p ++ '/'::name) = some (p,name) := splitLast_some.mpr ⟨rfl,hname⟩
  rcases hrest : splitLast '/' rest with _ | ⟨a,b⟩
  · rw [he,splitLast_some.mpr ⟨rfl,splitLast_none.mp hrest⟩] at hlast
    exact .inl (congrArg Prod.fst (Option.some.inj hlast)).symm
  · obtain ⟨rfl,hb⟩ := splitLast_some.mp hrest
    have hdeep : q ++ '/'::(a ++ '/'::b) = (q ++ '/'::a) ++ '/'::b := by simp
    rw [he,hdeep,splitLast_some.mpr ⟨rfl,hb⟩] at hlast
    exact .inr ⟨a,(congrArg Prod.fst (Option.some.inj hlast)).symm⟩

/-- Whatever lies below a node lies below a child of it, and the node is a
directory. -/
theorem child_of_below (h : db.Tree) {r x : PathRow} (hr : r ∈ db.paths) (hx : x ∈ db.paths)
    (hu : x.userId = r.userId) (hb : Below r.path x.path) :
    r.type = 1 ∧ ∃ y ∈ db.paths, y.userId = r.userId ∧ y.parentId = r.id := by
  -- The directories above `x` are shorter; the last one below `r` is the child.
  induction hn : x.path.length using Nat.strong_induction_on generalizing x with
  | _ n ih =>
  rcases h.placed x hx with ⟨-,hpath⟩ | ⟨p,hp,hid,hpu,ht,hpath⟩
  · exfalso
    have hroot : Below r.path ([] ++ '/'::x.fileName) := by
      rw [List.nil_append,← hpath]
      exact hb
    rcases below_split (h.plain x hx) hroot with hnil | ⟨rest,hnil⟩
    · exact place_ne_nil (h.placed r hr) hnil.symm
    · simp at hnil
  · rw [hpath] at hb
    rcases below_split (h.plain x hx) hb with hsame | hdeep
    · obtain rfl : p = r := Rows.unique_inj h.keyed.places hp hr
        (Prod.ext (hpu.trans hu) hsame)
      exact ⟨ht,x,hx,hu,hid.symm⟩
    · refine ih p.path.length ?_ hp (hpu.trans hu) hdeep rfl
      rw [← hn,hpath]
      simp

theorem path_ne_root (h : db.Tree) {r : PathRow} (hr : r ∈ db.paths) : r.path ≠ "/".toList := by
  intro hroot
  rcases h.placed r hr with ⟨-,hpath⟩ | ⟨p,hp,-,-,-,hpath⟩
  · rw [hroot] at hpath
    exact h.named r hr (List.cons.inj hpath).2.symm
  · have hlen := congrArg List.length (hroot.symm.trans hpath)
    have hpos := List.length_pos_iff.mpr (place_ne_nil (h.placed p hp))
    simp at hlen
    omega

theorem absPath_plain {currentPath name : Text} (hname : '/' ∉ name) :
    absPath currentPath name =
      if currentPath = "/".toList then '/'::name else currentPath ++ '/'::name := by
  have hrel : name.head? ≠ some '/' := fun hh => hname (List.mem_of_mem_head? hh)
  rw [absPath,if_neg hrel]

theorem baseName_joined {currentPath name : Text} (hname : '/' ∉ name) :
    baseName (absPath currentPath name) = name := by
  rw [absPath_plain hname]
  split
  · rw [baseName,splitLast_some.mpr ⟨(List.nil_append _).symm,hname⟩]
  · rw [baseName,splitLast_some.mpr ⟨rfl,hname⟩]

theorem place_entry (h : db.Tree) {ctx : ClientContext} {name : Text} (hname : '/' ∉ name)
    (hdir : (ctx.currentPath = "/".toList ∧ ctx.currentDirId = 0) ∨
      ∃ r ∈ db.paths, r.id = ctx.currentDirId ∧ r.userId = ctx.userId ∧ r.type = 1 ∧
        r.path = ctx.currentPath) :
    db.Place ctx.userId (absPath ctx.currentPath name) ctx.currentDirId name := by
  rw [absPath_plain hname]
  rcases hdir with ⟨hroot,hid⟩ | ⟨r,hr,hid,hu,ht,hpath⟩
  · rw [if_pos hroot]
    exact .inl ⟨hid,rfl⟩
  · rw [← hpath,if_neg (path_ne_root h hr)]
    exact .inr ⟨r,hr,hid,hu,ht,rfl⟩

theorem tree_fewer (h : db.Tree) (hk : db'.Keyed) (hold : ∀ r ∈ db'.paths, r ∈ db.paths)
    (hdirs : ∀ p ∈ db.paths, p.type = 1 →
      p ∈ db'.paths ∨ ∀ x ∈ db.paths, ¬(x.userId = p.userId ∧ x.parentId = p.id)) : db'.Tree where
  keyed := hk
  named r hr := h.named r (hold r hr)
  plain r hr := h.plain r (hold r hr)
  placed r hr := by
    refine place_kept (h.placed r (hold r hr)) fun p hp ht hu hid => ?_
    rcases hdirs p hp ht with hkept | hempty
    · exact hkept
    · exact absurd ⟨hu.symm,hid.symm⟩ (hempty r (hold r hr))

theorem tree_more (h : db.Tree) (hk : db'.Keyed) (hkept : ∀ r ∈ db.paths, r ∈ db'.paths)
    (hnew : ∀ r ∈ db'.paths, r ∉ db.paths → db.Place r.userId r.path r.parentId r.fileName ∧
      r.fileName ≠ [] ∧ '/' ∉ r.fileName) : db'.Tree where
  keyed := hk
  named r hr := by
    by_cases hin : r ∈ db.paths
    · exact h.named r hin
    · exact (hnew r hr hin).2.1
  plain r hr := by
    by_cases hin : r ∈ db.paths
    · exact h.plain r hin
    · exact (hnew r hr hin).2.2
  placed r hr := by
    have hplace : db.Place r.userId r.path r.parentId r.fileName := by
      by_cases hin : r ∈ db.paths
      · exact h.placed r hin
      · exact (hnew r hr hin).1
    exact place_kept hplace fun p hp _ _ _ => hkept p hp

end Rows

end WindCloud
