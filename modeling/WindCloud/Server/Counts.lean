import WindCloud.Server.TableOps

/-!
# References and their counts

A file has as many references as there are file nodes with its number. Where
the count of each row is this number, and no row is without a reference, the
functions the commands amount to keep it so.
-/

set_option autoImplicit false

namespace WindCloud
open CString Rows

namespace Db

def references (db : Db) (fileId : ℕ) : ℕ :=
  db.paths.countP fun p => p.type = 0 ∧ p.fileId = some fileId

/-- The counts are the numbers of references, a reference leads to a row, and a
row has a reference. -/
structure Counted (db : Db) : Prop where
  counts : ∀ r ∈ db.files, r.count = db.references r.id
  linked : ∀ p ∈ db.paths, p.type = 0 → ∃ r ∈ db.files, p.fileId = some r.id
  used : ∀ r ∈ db.files, ∃ p ∈ db.paths, p.type = 0 ∧ p.fileId = some r.id

def Referenced (db : Db) (h : Text) : Prop :=
  ∃ p ∈ db.paths, p.type = 0 ∧ ∃ r ∈ db.files, p.fileId = some r.id ∧ Hex.hexLower r.sha256sum = h

end Db

section References

variable {db : Db}

theorem empty_counted : Db.empty.Counted where
  counts := by simp [Db.empty]
  linked := by simp [Db.empty]
  used := by simp [Db.empty]

theorem references_positive {fileId : ℕ} :
    0 < db.references fileId ↔ ∃ p ∈ db.paths, p.type = 0 ∧ p.fileId = some fileId := by
  simp [Db.references,List.countP_pos_iff]

theorem references_addPath (userId : ℤ) (path : Text) (fileId : Option ℕ) (parentId : ℕ)
    (fileName : Text) (type id : ℕ) :
    (db.addPath userId path fileId parentId fileName type).references id =
      db.references id + if type = 0 ∧ fileId = some id then 1 else 0 := by
  simp [Db.references,List.countP_append,List.countP_singleton]

theorem references_dropPath (hk : db.Keyed) {r : PathRow} (hr : r ∈ db.paths) (fileId : ℕ) :
    (db.dropPath r.userId r.id).references fileId +
      (if r.type = 0 ∧ r.fileId = some fileId then 1 else 0) = db.references fileId := by
  have hsame : (db.dropPath r.userId r.id).paths = db.paths.filter fun x => x.id ≠ r.id := by
    apply List.filter_congr
    intro x hx
    by_cases hid : x.id = r.id
    · obtain rfl := unique_inj hk.pathIds.unique hx hr hid
      simp
    · simp [hid]
  rw [Db.references,hsame,Db.references,← unique_countP_filter hk.pathIds.unique hr]
  simp

theorem dropPath_absent {userId : ℤ} {id : ℕ} (h : ∀ p ∈ db.paths, p.id ≠ id) :
    db.dropPath userId id = db := by
  have hkeep : db.paths.filter (fun r => ¬(r.id = id ∧ r.userId = userId)) = db.paths := by
    apply List.filter_eq_self.mpr
    intro r hr
    simp [h r hr]
  rw [Db.dropPath,hkeep]

theorem counted_users (h : db.Counted) (users : List UserRow) (next : ℕ) :
    ({ db with users := users, nextUser := next } : Db).Counted :=
  ⟨h.counts,h.linked,h.used⟩

theorem counted_putSource (h : db.Counted) (id : ℕ) (ip port : Text) :
    (db.putSource id ip port).Counted := by
  unfold Db.putSource
  split <;> exact ⟨h.counts,h.linked,h.used⟩

theorem counted_addDirectory (h : db.Counted) (userId : ℤ) (path : Text) (parentId : ℕ)
    (fileName : Text) : (db.addPath userId path none parentId fileName 1).Counted where
  counts r hr := by
    rw [references_addPath,if_neg (by simp),Nat.add_zero]
    exact h.counts r hr
  linked p hp ht := by
    rcases List.mem_append.mp hp with hp | hp
    · exact h.linked p hp ht
    · obtain rfl := List.mem_singleton.mp hp
      cases ht
  used r hr := by
    obtain ⟨p,hp,he⟩ := h.used r hr
    exact ⟨p,List.mem_append_left _ hp,he⟩

theorem counted_dropDirectory (hk : db.Keyed) (h : db.Counted) {r : PathRow} (hr : r ∈ db.paths)
    (ht : r.type ≠ 0) : (db.dropPath r.userId r.id).Counted where
  counts x hx := by
    have hsame := references_dropPath hk hr x.id
    rw [if_neg (by simp [ht]),Nat.add_zero] at hsame
    rw [hsame]
    exact h.counts x hx
  linked p hp := h.linked p (List.mem_of_mem_filter hp)
  used x hx := by
    obtain ⟨p,hp,hfile,he⟩ := h.used x hx
    refine ⟨p,List.mem_filter.mpr ⟨hp,?_⟩,hfile,he⟩
    simp only [decide_eq_true_eq]
    rintro ⟨hid,-⟩
    obtain rfl := unique_inj hk.pathIds.unique hp hr hid
    exact ht hfile

theorem counted_addReference (h : db.Counted) {r : FileRow} (hr : r ∈ db.files)
    (userId : ℤ) (path : Text) (parentId : ℕ) (fileName : Text) :
    ((db.addPath userId path (some r.id) parentId fileName 0).addRef r.id).Counted where
  counts x hx := by
    obtain ⟨y,hy,rfl⟩ := List.mem_map.mp hx
    have hcount := h.counts y hy
    have hmore : (db.addPath userId path (some r.id) parentId fileName 0).references y.id = _ :=
      references_addPath userId path (some r.id) parentId fileName 0 y.id
    change (if y.id = r.id then { y with count := y.count+1 } else y).count =
      (db.addPath userId path (some r.id) parentId fileName 0).references
        (if y.id = r.id then { y with count := y.count+1 } else y).id
    by_cases hid : y.id = r.id
    · rw [if_pos hid]
      dsimp only
      rw [hmore,if_pos ⟨rfl,by rw [hid]⟩,hcount]
    · rw [if_neg hid,hmore,if_neg (by simpa using Ne.symm hid),hcount,Nat.add_zero]
  linked p hp ht := by
    have hrow : ∀ x ∈ db.files, ∃ y ∈ ((db.addPath userId path (some r.id) parentId fileName 0).addRef
        r.id).files, y.id = x.id := by
      intro x hx
      refine ⟨_,List.mem_map_of_mem hx,?_⟩
      split <;> rfl
    rcases List.mem_append.mp hp with hp | hp
    · obtain ⟨x,hx,he⟩ := h.linked p hp ht
      obtain ⟨y,hy,hid⟩ := hrow x hx
      exact ⟨y,hy,by rw [hid]; exact he⟩
    · obtain rfl := List.mem_singleton.mp hp
      obtain ⟨y,hy,hid⟩ := hrow r hr
      exact ⟨y,hy,by rw [hid]⟩
  used x hx := by
    obtain ⟨y,hy,rfl⟩ := List.mem_map.mp hx
    obtain ⟨p,hp,ht,he⟩ := h.used y hy
    refine ⟨p,List.mem_append_left _ hp,ht,?_⟩
    split <;> exact he

theorem counted_newReference (hk : db.Keyed) (h : db.Counted) (bs : List ℕ) (size : ℤ)
    (userId : ℤ) (path : Text) (parentId : ℕ) (fileName : Text) :
    ((db.addFile bs size).addPath userId path (some db.nextFile) parentId fileName 0).Counted where
  counts x hx := by
    have hmore : ((db.addFile bs size).addPath userId path (some db.nextFile) parentId fileName
        0).references x.id = _ :=
      references_addPath userId path (some db.nextFile) parentId fileName 0 x.id
    have hold : (db.addFile bs size).references x.id = db.references x.id := rfl
    rw [hmore,hold]
    rcases List.mem_append.mp hx with hx | hx
    · have hlt := hk.fileIds.below x hx
      rw [h.counts x hx,if_neg (by rintro ⟨-,he⟩; have := Option.some.inj he; omega),Nat.add_zero]
    · obtain rfl := List.mem_singleton.mp hx
      have hnone : db.references db.nextFile = 0 := by
        by_contra hpos
        obtain ⟨p,hp,ht,he⟩ := references_positive.mp (Nat.pos_of_ne_zero hpos)
        obtain ⟨r,hr,hid⟩ := h.linked p hp ht
        have hlt := hk.fileIds.below r hr
        have hsame : r.id = db.nextFile := Option.some.inj (hid.symm.trans he)
        omega
      simp [hnone]
  linked p hp ht := by
    rcases List.mem_append.mp hp with hp | hp
    · obtain ⟨r,hr,he⟩ := h.linked p hp ht
      exact ⟨r,List.mem_append_left _ hr,he⟩
    · obtain rfl := List.mem_singleton.mp hp
      exact ⟨_,List.mem_append_right _ (List.mem_singleton_self _),rfl⟩
  used x hx := by
    rcases List.mem_append.mp hx with hx | hx
    · obtain ⟨p,hp,he⟩ := h.used x hx
      exact ⟨p,List.mem_append_left _ hp,he⟩
    · obtain rfl := List.mem_singleton.mp hx
      exact ⟨_,List.mem_append_right _ (List.mem_singleton_self _),rfl,rfl⟩

theorem subRef_files_self (hk : db.Keyed) {r : FileRow} (hr : r ∈ db.files) {x : FileRow}
    (hx : x ∈ (db.subRef r.id).files) (hid : x.id = r.id) : x = { r with count := r.count-1 } := by
  obtain ⟨y,hy,rfl⟩ := List.mem_map.mp hx
  have hy' : y.id = r.id := by
    rw [← hid]
    split <;> rfl
  obtain rfl := unique_inj hk.fileIds.unique hy hr hy'
  split
  · rfl
  · rename_i hzero
    have hcount : y.count-1 = y.count := by
      have := not_and.mp hzero rfl
      omega
    rw [hcount]

theorem subRef_files_other {id : ℕ} {x : FileRow} (hid : x.id ≠ id) :
    x ∈ (db.subRef id).files ↔ x ∈ db.files := by
  constructor
  · intro hx
    obtain ⟨y,hy,rfl⟩ := List.mem_map.mp hx
    split at hid
    · rename_i hc
      exact absurd hc.1 hid
    · rename_i hc
      rw [if_neg hc]
      exact hy
  · intro hx
    exact List.mem_map.mpr ⟨x,hx,by rw [if_neg (fun hc => hid hc.1)]⟩

theorem subRef_files_mem {r : FileRow} (hr : r ∈ db.files) :
    ∃ x ∈ (db.subRef r.id).files, x.id = r.id := by
  refine ⟨_,List.mem_map_of_mem hr,?_⟩
  split <;> rfl

theorem release_last {fileId : ℕ} {r : FileRow}
    (hr : (db.subRef fileId).fileWithId fileId = some r) (hlast : r.count = 0) :
    (db.release fileId).paths = db.paths ∧
      ∀ x, x ∈ (db.release fileId).files ↔ x ∈ db.files ∧ x.id ≠ fileId := by
  have hmem : ∀ x, x ∈ ((db.subRef fileId).dropFile fileId).files ↔ x ∈ db.files ∧ x.id ≠ fileId := by
    intro x
    constructor
    · intro hx
      obtain ⟨hx,hid⟩ := List.mem_filter.mp hx
      have hne : x.id ≠ fileId := by simpa using hid
      exact ⟨(subRef_files_other hne).mp hx,hne⟩
    · rintro ⟨hx,hne⟩
      exact List.mem_filter.mpr ⟨(subRef_files_other hne).mpr hx,by simpa using hne⟩
  rw [Db.release,hr]
  dsimp only
  rw [if_neg (by omega)]
  split <;> exact ⟨rfl,hmem⟩

theorem counted_release (hk : db.Keyed) (h : db.Counted) {p : PathRow} (hp : p ∈ db.paths)
    (ht : p.type = 0) {r : FileRow} (hr : r ∈ db.files) (he : p.fileId = some r.id) :
    ((db.dropPath p.userId p.id).release r.id).Counted := by
  have hless := references_dropPath hk hp
  have hone : r.count = (db.dropPath p.userId p.id).references r.id+1 := by
    rw [h.counts r hr,← hless,if_pos ⟨ht,he⟩]
  have hother : ∀ x ∈ db.files, x.id ≠ r.id →
      x.count = (db.dropPath p.userId p.id).references x.id ∧
        ∃ q ∈ (db.dropPath p.userId p.id).paths, q.type = 0 ∧ q.fileId = some x.id := by
    intro x hx hne
    have hp' : p.fileId ≠ some x.id := by
      rw [he]
      simpa using Ne.symm hne
    refine ⟨by rw [h.counts x hx,← hless,if_neg (fun hc => hp' hc.2),Nat.add_zero],?_⟩
    obtain ⟨q,hq,hfile,hxid⟩ := h.used x hx
    refine ⟨q,List.mem_filter.mpr ⟨hq,?_⟩,hfile,hxid⟩
    simp only [decide_eq_true_eq]
    rintro ⟨hid,-⟩
    obtain rfl := unique_inj hk.pathIds.unique hq hp hid
    exact hp' hxid
  have hlinked : ∀ q ∈ (db.dropPath p.userId p.id).paths, q.type = 0 →
      ∃ x ∈ db.files, q.fileId = some x.id := fun q hq => h.linked q (List.mem_of_mem_filter hq)
  generalize hd : db.dropPath p.userId p.id = d at *
  have hfiles : d.files = db.files := by rw [← hd]; rfl
  have hkd : d.Keyed := hd ▸ keyed_dropPath hk _ _
  rw [← hfiles] at hr hother hlinked
  have hrow : (d.subRef r.id).fileWithId r.id = some { r with count := r.count-1 } := by
    rw [subRef_fileWithId,fileWithId_mem hkd hr,Option.map_some,if_pos (by omega)]
  by_cases hlast : r.count-1 = 0
  · obtain ⟨hpaths,hmem⟩ := release_last hrow hlast
    have hrefs : ∀ id, (d.release r.id).references id = d.references id := by
      intro id
      rw [Db.references,hpaths,Db.references]
    have hzero : d.references r.id = 0 := by omega
    refine ⟨?_,?_,?_⟩
    · intro x hx
      obtain ⟨hx,hne⟩ := (hmem x).mp hx
      rw [hrefs]
      exact (hother x hx hne).1
    · intro q hq hfile
      rw [hpaths] at hq
      obtain ⟨x,hx,hid⟩ := hlinked q hq hfile
      refine ⟨x,(hmem x).mpr ⟨hx,?_⟩,hid⟩
      intro hxr
      have hpos := references_positive.mpr ⟨q,hq,hfile,hxr ▸ hid⟩
      omega
    · intro x hx
      obtain ⟨hx,hne⟩ := (hmem x).mp hx
      rw [hpaths]
      exact (hother x hx hne).2
  · have hkept : d.release r.id = d.subRef r.id := by
      rw [Db.release,hrow]
      exact if_pos (by change 0 < r.count-1; omega)
    rw [hkept]
    refine ⟨?_,?_,?_⟩
    · intro x hx
      change x.count = d.references x.id
      by_cases hid : x.id = r.id
      · rw [subRef_files_self hkd hr hx hid]
        change r.count-1 = d.references r.id
        omega
      · exact (hother x ((subRef_files_other hid).mp hx) hid).1
    · intro q hq hfile
      obtain ⟨x,hx,hid⟩ := hlinked q hq hfile
      by_cases hxr : x.id = r.id
      · obtain ⟨y,hy,hyr⟩ := subRef_files_mem hr
        exact ⟨y,hy,by rw [hid,hxr,hyr]⟩
      · exact ⟨x,(subRef_files_other hxr).mpr hx,hid⟩
    · intro x hx
      by_cases hid : x.id = r.id
      · obtain ⟨q,hq,hfile,hqr⟩ := references_positive.mp (by omega : 0 < d.references r.id)
        exact ⟨q,hq,hfile,by rw [hid]; exact hqr⟩
      · exact (hother x ((subRef_files_other hid).mp hx) hid).2

end References

/-- The keys and the counts together. -/
structure Db.Consistent (db : Db) : Prop where
  keyed : db.Keyed
  counted : db.Counted

/-- The last reference to the file with this hash has gone. -/
def LastGone (db db' : Db) (h : Text) : Prop := db.Referenced h ∧ ¬db'.Referenced h

section Commands

variable {db : Db} {ctx : ClientContext} {arg : Text}

theorem empty_consistent : Db.empty.Consistent := ⟨empty_keyed,empty_counted⟩

theorem referenced_iff (h : db.Consistent) {hash : Text} :
    db.Referenced hash ↔ ∃ r ∈ db.files, Hex.hexLower r.sha256sum = hash := by
  constructor
  · rintro ⟨p,hp,ht,r,hr,he,hh⟩
    exact ⟨r,hr,hh⟩
  · rintro ⟨r,hr,hh⟩
    obtain ⟨p,hp,ht,he⟩ := h.counted.used r hr
    exact ⟨p,hp,ht,r,hr,he,hh⟩

theorem consistent_addUser (h : db.Consistent) {username passwordHash salt : Text}
    (hn : ∀ r ∈ db.users, r.username ≠ username) :
    (db.addUser username passwordHash salt).Consistent :=
  ⟨keyed_addUser h.keyed hn,counted_users h.counted _ _⟩

theorem consistent_putSource (h : db.Consistent) (id : ℕ) (ip port : Text) :
    (db.putSource id ip port).Consistent :=
  ⟨keyed_putSource h.keyed id ip port,counted_putSource h.counted id ip port⟩

theorem consistent_link (h : db.Consistent) {userId : ℤ} {path : Text} (parentId : ℕ)
    (fileName : Text) {bs : List ℕ} (size : ℤ) (hn : db.nodeAt userId path = none)
    (hb : bs.length = 32 ∧ ∀ b ∈ bs, b < 256) :
    (db.link userId path parentId fileName bs size).Consistent := by
  unfold Db.link
  cases hf : db.fileOf bs with
  | some r =>
    obtain ⟨hr,-⟩ := fileOf_some hf
    exact ⟨keyed_addRef (keyed_addPath h.keyed hn) _,
      counted_addReference h.counted hr userId path parentId fileName⟩
  | none => exact ⟨keyed_addPath (keyed_addFile h.keyed hf hb) hn,
      counted_newReference h.keyed h.counted bs size userId path parentId fileName⟩

theorem consistent_mkdir (h : db.Consistent) (ctx : ClientContext) (arg : Text) :
    (db.mkdir ctx arg).Consistent := by
  unfold Db.mkdir
  split
  · rename_i hv
    obtain ⟨-,-,-,hn⟩ := vacant_true hv
    exact ⟨keyed_addPath h.keyed hn,counted_addDirectory h.counted _ _ _ _⟩
  · exact h

theorem consistent_touch (h : db.Consistent) (ctx : ClientContext) (arg : Text) {bs : List ℕ}
    (hb : bs.length = 32 ∧ ∀ b ∈ bs, b < 256) : (db.touch ctx arg bs).Consistent := by
  unfold Db.touch
  split
  · rename_i hv
    obtain ⟨-,-,-,hn⟩ := vacant_true hv
    exact consistent_link h _ _ 0 hn hb
  · exact h

/-- What is found at a path that is not the root. -/
theorem lookup_some {userId : ℤ} {path : Text} {id type : ℕ}
    (h : db.lookup userId path = some (id,type)) :
    (path = "/".toList ∧ id = 0 ∧ type = 1) ∨
      ∃ r ∈ db.paths, r.userId = userId ∧ r.path = path ∧ r.id = id ∧ r.type = type := by
  unfold Db.lookup at h
  split at h
  · rename_i hroot
    obtain ⟨rfl,rfl⟩ : 0 = id ∧ 1 = type := by simpa using h
    exact .inl ⟨hroot,rfl,rfl⟩
  · obtain ⟨r,hr,he⟩ := Option.map_eq_some_iff.mp h
    obtain ⟨hmem,hu,hp⟩ := nodeAt_some hr
    exact .inr ⟨r,hmem,hu,hp,congrArg Prod.fst he,congrArg Prod.snd he⟩

theorem fileInfo_some {userId : ℤ} {path : Text} {id fileId : ℕ}
    (h : db.fileInfo userId path = some (id,fileId)) :
    ∃ r, db.nodeAt userId path = some r ∧ r.id = id ∧ r.type = 0 ∧ r.fileId = some fileId := by
  unfold Db.fileInfo at h
  split at h
  · cases h
  rename_i r hr
  split at h
  · rename_i ht
    obtain ⟨f,hf,he⟩ := Option.map_eq_some_iff.mp h
    obtain ⟨rfl,rfl⟩ := Prod.mk.inj he
    exact ⟨r,hr,rfl,ht,hf⟩
  · cases h

theorem removable_row {id fileId : ℕ} (h : db.removable ctx arg = some (id,fileId)) :
    ∃ p ∈ db.paths, p.userId = ctx.userId ∧ p.path = absPath ctx.currentPath arg ∧ p.id = id ∧
      p.type = 0 ∧ p.fileId = some fileId := by
  unfold Db.removable at h
  split at h
  · cases h
  split at h
  · cases h
  rename_i id' type hl
  split at h
  · cases h
  rename_i htype
  obtain ⟨⟨id₀,f⟩,hi,he⟩ := Option.map_eq_some_iff.mp h
  obtain ⟨rfl,rfl⟩ := Prod.mk.inj he
  obtain ⟨p,hp,-,ht,hf⟩ := fileInfo_some hi
  obtain ⟨hmem,hu,hpath⟩ := nodeAt_some hp
  refine ⟨p,hmem,hu,hpath,?_,ht,hf⟩
  unfold Db.lookup at hl
  split at hl
  · obtain ⟨-,rfl⟩ := Prod.mk.inj (Option.some.inj hl)
    exact absurd rfl htype
  · rw [hp] at hl
    exact congrArg Prod.fst (Option.some.inj hl)

theorem keyed_release (h : db.Keyed) (fileId : ℕ) : (db.release fileId).Keyed := by
  unfold Db.release
  split
  · exact h
  split
  · exact keyed_subRef h fileId
  · split
    · exact keyed_dropFile (keyed_subRef h _) _
    · have hdropped : ((db.subRef fileId).dropSources fileId).Keyed :=
        { keyed_subRef h fileId with }
      exact keyed_dropFile hdropped _

theorem consistent_rm (h : db.Consistent) (ctx : ClientContext) (arg : Text) :
    (db.rm ctx arg).Consistent := by
  unfold Db.rm
  split
  · exact h
  rename_i id fileId hr
  obtain ⟨p,hp,hu,-,rfl,ht,hf⟩ := removable_row hr
  obtain ⟨r,hfile,he⟩ := h.counted.linked p hp ht
  obtain rfl : fileId = r.id := Option.some.inj (hf.symm.trans he)
  rw [← hu]
  exact ⟨keyed_release (keyed_dropPath h.keyed _ _) _,
    counted_release h.keyed h.counted hp ht hfile he⟩

theorem consistent_rmdir (h : db.Consistent) (ctx : ClientContext) (arg : Text) :
    (db.rmdir ctx arg).Consistent := by
  unfold Db.rmdir
  split
  · exact h
  split
  · exact h
  rename_i id type hl
  split
  · exact h
  rename_i ht
  split
  · exact h
  rcases lookup_some hl with ⟨-,rfl,-⟩ | ⟨r,hr,hu,-,rfl,rfl⟩
  · have habsent : db.dropPath ctx.userId 0 = db := by
      apply dropPath_absent
      intro p hp
      exact Nat.ne_of_gt (h.keyed.pathIds.positive p hp)
    rw [habsent]
    exact h
  · rw [← hu]
    exact ⟨keyed_dropPath h.keyed _ _,counted_dropDirectory h.keyed h.counted hr ht⟩

theorem hash_row (h : db.Keyed) {r x : FileRow} (hr : r ∈ db.files) (hx : x ∈ db.files)
    (he : Hex.hexLower x.sha256sum = Hex.hexLower r.sha256sum) : x = r := by
  have hsum := Hex.hexLower_injective (h.cells x hx).2 (h.cells r hr).2 he
  exact unique_inj h.hashes hx hr hsum

/-- The hash whose row goes is the one whose last reference goes. -/
theorem rm_last (h : db.Consistent) {hash : Text} :
    ((db.removable ctx arg).bind fun e => db.lastHash e.2) = some hash ↔
      LastGone db (db.rm ctx arg) hash := by
  have hafter := consistent_rm h ctx arg
  cases hr : db.removable ctx arg with
  | none =>
    rw [Db.rm,hr]
    exact ⟨fun hn => absurd hn.symm (Option.some_ne_none hash),fun hg => absurd hg.1 hg.2⟩
  | some e =>
    obtain ⟨id,fileId⟩ := e
    obtain ⟨p,hp,hu,-,rfl,ht,hf⟩ := removable_row hr
    obtain ⟨r,hfile,he⟩ := h.counted.linked p hp ht
    obtain rfl : fileId = r.id := Option.some.inj (hf.symm.trans he)
    have hrm : db.rm ctx arg = (db.dropPath p.userId p.id).release r.id := by
      rw [Db.rm,hr,hu]
    have hpos : 0 < r.count := by
      rw [h.counted.counts r hfile]
      exact references_positive.mpr ⟨p,hp,ht,he⟩
    have hkd := keyed_dropPath h.keyed p.userId p.id
    have hrow : ((db.dropPath p.userId p.id).subRef r.id).fileWithId r.id =
        some { r with count := r.count-1 } := by
      rw [subRef_fileWithId,fileWithId_mem hkd hfile,Option.map_some,if_pos hpos]
    have hsum : (db.subRef r.id).fileWithId r.id = some { r with count := r.count-1 } := by
      rw [subRef_fileWithId,fileWithId_mem h.keyed hfile,Option.map_some,if_pos hpos]
    change db.lastHash r.id = some hash ↔ _
    rw [Db.lastHash,hsum,LastGone,referenced_iff h,referenced_iff hafter,hrm]
    dsimp only
    by_cases hlast : r.count-1 = 0
    · obtain ⟨-,hmem⟩ := release_last hrow hlast
      rw [if_neg (by omega)]
      constructor
      · intro hh
        obtain rfl := Option.some.inj hh
        refine ⟨⟨r,hfile,rfl⟩,?_⟩
        rintro ⟨x,hx,hxh⟩
        obtain ⟨hx,hne⟩ := (hmem x).mp hx
        exact hne (congrArg FileRow.id (hash_row h.keyed hfile hx hxh))
      · rintro ⟨⟨x,hx,rfl⟩,hgone⟩
        have hxr : x.id = r.id := by
          by_contra hne
          exact hgone ⟨x,(hmem x).mpr ⟨hx,hne⟩,rfl⟩
        rw [unique_inj h.keyed.fileIds.unique hx hfile hxr]
    · rw [if_pos (by omega)]
      refine ⟨fun hn => absurd hn.symm (Option.some_ne_none hash),?_⟩
      rintro ⟨⟨x,hx,hxh⟩,hgone⟩
      refine absurd ?_ hgone
      have hkept : (db.dropPath p.userId p.id).release r.id =
          (db.dropPath p.userId p.id).subRef r.id := by
        rw [Db.release,hrow]
        exact if_pos (by change 0 < r.count-1; omega)
      rw [hkept]
      by_cases hid : x.id = r.id
      · obtain rfl := unique_inj h.keyed.fileIds.unique hx hfile hid
        obtain ⟨y,hy,hyid⟩ : ∃ y ∈ ((db.dropPath p.userId p.id).subRef x.id).files, y.id = x.id :=
          subRef_files_mem hfile
        have hself := subRef_files_self hkd hfile hy hyid
        exact ⟨y,hy,by rw [hself]; exact hxh⟩
      · exact ⟨x,(subRef_files_other hid).mpr hx,hxh⟩

end Commands

end WindCloud
