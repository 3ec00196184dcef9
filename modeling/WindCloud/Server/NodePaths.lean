import WindCloud.Lib.Turns
import WindCloud.Server.DownloadRuns

/-!
# One path for a name

The control connection joins the session's path and a name for a ticket, the
transfer connection takes the ticket's path apart and joins it again, and the
directory commands join the two a third time. They mean the same node as long
as the path fits into the array the directory commands write it into.
-/

set_option autoImplicit false

namespace WindCloud
open CString Effect

/-- The root, or an absolute path that does not end in a slash. -/
structure SessionPath (path : Text) : Prop where
  absolute : path.head? = some '/'
  plain : path = "/".toList ∨ path.getLast? ≠ some '/'
  short : path.length < 256

/-- Whoever joins or splits it, `fullPath` is `arg` in the session's directory. -/
structure PathsAgree (ctx : ClientContext) (arg fullPath : Text) : Prop where
  split : splitFullPath fullPath 256 fileNameLen = some (ctx.currentPath,arg)
  rebuilt : ∀ (userId : ℤ) (ctx' : ClientContext) (name : Text),
    (buildTransferContext userId fullPath).Returns (some (ctx',name)) →
      name = arg ∧ ctx'.currentPath = ctx.currentPath ∧
        buildFullVirtualPath fullPathLen ctx' name = some fullPath
  absolute : buildAbsPath ctx.currentPath arg = pure fullPath

section Joins

variable {ctx : ClientContext} {arg fullPath : Text}

theorem transferFullPath_eq {size : ℕ} (h : buildTransferFullPath ctx arg size = some fullPath) :
    fullPath = absPath ctx.currentPath arg ∧ checkArgPath arg = true ∧ '/' ∉ arg ∧
      fullPath.length < size := by
  unfold buildTransferFullPath at h
  split at h
  · rename_i hok
    obtain ⟨rfl,hlen⟩ := bounded_eq_some.mp h
    have hrel : arg.head? ≠ some '/' := by
      have hc := hok.1
      simp only [checkArgPath,Bool.and_eq_true,decide_eq_true_eq] at hc
      exact hc.2
    exact ⟨by rw [absPath,if_neg hrel],hok.1,hok.2,hlen⟩
  · cases h

theorem fullVirtualPath_eq (ctx : ClientContext) (arg : Text) (size : ℕ) :
    buildFullVirtualPath size ctx arg = buildTransferFullPath ctx arg size := rfl

/-- What the splitting leaves is the directory and the name that were joined. -/
theorem split_joined (hpath : SessionPath ctx.currentPath) (hne : arg ≠ []) (hslash : '/' ∉ arg)
    (harg : arg.length < fileNameLen) :
    splitFullPath (absPath ctx.currentPath arg) 256 fileNameLen = some (ctx.currentPath,arg) := by
  have hrel : arg.head? ≠ some '/' := by
    intro hh
    exact hslash (List.mem_of_mem_head? hh)
  have htake : arg.take (fileNameLen-1) = arg := List.take_of_length_le (by omega)
  by_cases hroot : ctx.currentPath = "/".toList
  · have hlast : splitLast '/' ('/'::arg) = some ([],arg) := splitLast_some.mpr ⟨rfl,hslash⟩
    rw [absPath,if_neg hrel,if_pos hroot,splitFullPath,if_neg (by simp),hlast]
    simp only [htake,if_neg hne,if_true,hroot]
  · have hlast : splitLast '/' (ctx.currentPath ++ '/'::arg) = some (ctx.currentPath,arg) :=
      splitLast_some.mpr ⟨rfl,hslash⟩
    have hhead : (ctx.currentPath ++ '/'::arg).head? = some '/' := by
      rw [List.head?_append,hpath.absolute]
      rfl
    have hnil : ctx.currentPath ≠ [] := by
      intro hnil
      have := hpath.absolute
      rw [hnil] at this
      cases this
    have hshort := hpath.short
    rw [absPath,if_neg hrel,if_neg hroot,splitFullPath,if_neg (by rw [hhead]; simp),hlast]
    simp only [htake,if_neg hne,if_neg hnil]
    rw [if_neg (by omega)]

theorem transferContext_returns {userId : ℤ} {parent name : Text}
    (hsplit : splitFullPath fullPath 256 fileNameLen = some (parent,name))
    (hparent : parent.length < 256) {ctx' : ClientContext} {name' : Text}
    (h : (buildTransferContext userId fullPath).Returns (some (ctx',name'))) :
    name' = name ∧ ctx'.currentPath = parent := by
  have htake : parent.take 255 = parent := List.take_of_length_le (by omega)
  simp only [buildTransferContext,hsplit,htake] at h
  split at h
  · obtain ⟨rfl,rfl⟩ := Prod.mk.inj (Option.some.inj h)
    exact ⟨rfl,rfl⟩
  · obtain ⟨r,-,h⟩ := Program.returns_bind _ _ _ h
    rcases r with _ | ⟨dirId,nodeType⟩
    · cases h
    · dsimp only at h
      split at h
      · cases h
      · obtain ⟨rfl,rfl⟩ := Prod.mk.inj (Option.some.inj h)
        exact ⟨rfl,rfl⟩

theorem buildAbsPath_fits (path arg : Text) :
    buildAbsPath path arg = pure (absPath path arg) ↔ (absPath path arg).length < 256 := by
  rw [buildAbsPath,strcpy]
  constructor
  · intro h
    by_contra hlong
    rw [if_neg hlong] at h
    cases h
  · intro h
    rw [if_pos h]

end Joins

/-- The three joins and the split agree on a name that is accepted exactly when
the path is shorter than the array of the directory commands. -/
theorem paths_agree_iff (ctx : ClientContext) (arg fullPath : Text)
    (hpath : SessionPath ctx.currentPath) (harg : arg.length ≤ 255)
    (h : buildTransferFullPath ctx arg fullPathLen = some fullPath) :
    PathsAgree ctx arg fullPath ↔ fullPath.length < 256 := by
  obtain ⟨rfl,hcheck,hslash,hfit⟩ := transferFullPath_eq h
  have hne : arg ≠ [] := by
    rintro rfl
    exact absurd hcheck (by decide)
  have hsplit := split_joined hpath hne hslash (by unfold fileNameLen; omega)
  constructor
  · intro hagree
    exact (buildAbsPath_fits _ _).mp hagree.absolute
  · intro hlen
    refine ⟨hsplit,?_,(buildAbsPath_fits _ _).mpr hlen⟩
    intro userId ctx' name hreturns
    obtain ⟨rfl,hcurrent⟩ := transferContext_returns hsplit hpath.short hreturns
    have hjoin : buildFullVirtualPath fullPathLen ctx' name =
        buildTransferFullPath ctx name fullPathLen := by
      rw [fullVirtualPath_eq,buildTransferFullPath,buildTransferFullPath,hcurrent]
    exact ⟨rfl,hcurrent,hjoin.trans h⟩

theorem document_paths_agree :
    PathsAgree ⟨3,"/doc".toList,7⟩ "a.txt".toList "/doc/a.txt".toList :=
  (paths_agree_iff ⟨3,"/doc".toList,7⟩ "a.txt".toList "/doc/a.txt".toList
    ⟨by decide,by decide,by decide⟩ (by decide) (by decide)).mpr (by decide)

/-- Eight directories with names of thirty bytes, one in the other. -/
def deepPath : Text := (List.replicate 8 ('/'::List.replicate 30 'a')).flatten

/-- A ticket is issued for a name whose path the directory commands have no room for. -/
theorem deep_paths_disagree :
    ¬ ∀ (ctx : ClientContext) (arg fullPath : Text), SessionPath ctx.currentPath →
      arg.length ≤ 255 → buildTransferFullPath ctx arg fullPathLen = some fullPath →
      PathsAgree ctx arg fullPath := by
  intro h
  have hagree := h ⟨3,deepPath,9⟩ "report.txt".toList (deepPath ++ "/report.txt".toList)
    ⟨by decide +kernel,by decide +kernel,by decide +kernel⟩ (by decide) (by decide +kernel)
  have hfits := (buildAbsPath_fits deepPath "report.txt".toList).mp
    (hagree.absolute.trans (congrArg pure (by decide +kernel)))
  exact absurd hfits (by decide +kernel)

end WindCloud
