import WindCloud.Lib.Pool
import WindCloud.Server.Counts

/-!
# What the executions owe the counts

An execution that enters or removes a reference does so with several
statements. In between it owes the count of a file an addition, or a
subtraction, or it alone knows of a row nobody refers to. With these stakes
the counts of all rows balance in every state.
-/

set_option autoImplicit false

namespace WindCloud
open Effect Function Rows

/-- What an execution has found out about a row, or done to it without having
brought its count up to date. -/
inductive Stake where
  | free
  | found (id : ℕ)
  | entered (id : ℕ)
  | owing (id : ℕ)
  | located (node : ℕ) (userId : ℤ) (path : CString.Text)
  | aimed (node id : ℕ)
  | removing (id : ℕ)
  | counted (id : ℕ)
  | releasing (id : ℕ)
  deriving DecidableEq, Repr

namespace Stake

/-- A path has been made and not been counted. -/
def debit (id : ℕ) : Stake → Bool
  | owing n => decide (n = id)
  | _ => false

/-- A count without a path. -/
def credit (id : ℕ) : Stake → Bool
  | entered n | removing n => decide (n = id)
  | _ => false

/-- The row must not go. -/
def needs (id : ℕ) : Stake → Bool
  | found n | entered n | owing n | removing n => decide (n = id)
  | _ => false

/-- A row without a reference will get one or will be deleted. -/
def minds (id : ℕ) : Stake → Bool
  | entered n | removing n | counted n | releasing n => decide (n = id)
  | _ => false

/-- Nothing is left to do. -/
def settled : Stake → Bool
  | free | found _ | located _ _ _ | aimed _ _ => true
  | _ => false

theorem settled_calm {s : Stake} (hs : s.settled = true) (id : ℕ) :
    s.debit id = false ∧ s.credit id = false ∧ s.minds id = false := by
  cases s <;> first | exact ⟨rfl,rfl,rfl⟩ | cases hs

/-- What a stake means for the tables and for the other stakes. -/
def Holds {ι : Type} (hash : CString.Text) (Λ : ι → Stake) (db : Db) : Stake → Prop
  | found id | owing id | removing id => ∃ r ∈ db.files, r.id = id
  | entered id => ∃ r ∈ db.files, r.id = id ∧ Hex.hexLower r.sha256sum = hash
  | located node userId path => node < db.nextPath ∧
      ∀ q ∈ db.paths, q.id = node → q.userId = userId ∧ q.path = path
  | aimed node id => node < db.nextPath ∧
      ∀ q ∈ db.paths, q.id = node → q.type = 0 ∧ q.fileId = some id
  | releasing id => id < db.nextFile ∧ db.references id = 0 ∧ ∀ j, (Λ j).needs id = false
  | free | counted _ => True

end Stake

/-- The counts balance with the stakes, references lead to rows, and somebody
minds every row without a reference. -/
structure Reconciled {ι : Type} [Fintype ι] (hash : ι → CString.Text) (Λ : ι → Stake) (db : Db) :
    Prop where
  keyed : db.Keyed
  linked : ∀ p ∈ db.paths, p.type = 0 → ∃ r ∈ db.files, p.fileId = some r.id
  counts : ∀ r ∈ db.files,
    r.count + tally Λ (Stake.debit r.id) = db.references r.id + tally Λ (Stake.credit r.id)
  minded : ∀ r ∈ db.files, 0 < db.references r.id ∨ ∃ i, (Λ i).minds r.id = true
  stakes : ∀ i, (Λ i).Holds (hash i) Λ db

section Moves

variable {ι : Type} [Fintype ι] [DecidableEq ι] {hash : ι → CString.Text} {Λ : ι → Stake}
  {db db' : Db} {i : ι} {s : Stake}

omit [Fintype ι] in
theorem minded_other {id : ℕ} (hi : (Λ i).minds id = false) {j : ι} (hj : (Λ j).minds id = true) :
    (update Λ i s j).minds id = true := by
  rw [update_of_ne]
  · exact hj
  · rintro rfl
    exact Bool.false_ne_true (hi.symm.trans hj)

/-- What a step must leave to the stakes of the others. -/
structure Spares (Λ : ι → Stake) (i : ι) (s : Stake) (db db' : Db) : Prop where
  files : ∀ j, j ≠ i → ∀ r ∈ db.files, (Λ j).needs r.id = true →
    ∃ r' ∈ db'.files, r'.id = r.id ∧ r'.sha256sum = r.sha256sum
  paths : ∀ q ∈ db'.paths, q.id < db.nextPath → q ∈ db.paths
  nextFile : db.nextFile ≤ db'.nextFile
  nextPath : db.nextPath ≤ db'.nextPath
  released : ∀ j id, j ≠ i → Λ j = .releasing id → db'.references id = 0 ∧ s.needs id = false

omit [Fintype ι] in
theorem stakes_spared (hs : Spares Λ i s db db') {j : ι} (hj : j ≠ i)
    (h : (Λ j).Holds (hash j) Λ db) : (Λ j).Holds (hash j) (update Λ i s) db' := by
  have hrow : ∀ id, (Λ j).needs id = true → (∃ r ∈ db.files, r.id = id) →
      ∃ r ∈ db'.files, r.id = id := by
    rintro id hn ⟨r,hr,rfl⟩
    obtain ⟨r',hr',hid,-⟩ := hs.files j hj r hr hn
    exact ⟨r',hr',hid⟩
  cases he : Λ j with
  | free => trivial
  | counted id => trivial
  | found id | owing id | removing id =>
    rw [he] at h hrow
    exact hrow id (decide_eq_true rfl) h
  | entered id =>
    rw [he] at h
    obtain ⟨r,hr,rfl,hh⟩ := h
    obtain ⟨r',hr',hid,hsum⟩ := hs.files j hj r hr (by rw [he]; exact decide_eq_true rfl)
    exact ⟨r',hr',hid,by rw [hsum]; exact hh⟩
  | located node userId path =>
    rw [he] at h
    exact ⟨h.1.trans_le hs.nextPath,fun q hq hid => h.2 q (hs.paths q hq (by have := h.1; omega)) hid⟩
  | aimed node id =>
    rw [he] at h
    exact ⟨h.1.trans_le hs.nextPath,fun q hq hid => h.2 q (hs.paths q hq (by have := h.1; omega)) hid⟩
  | releasing id =>
    rw [he] at h
    obtain ⟨hlt,-,hneeds⟩ := h
    obtain ⟨hzero,hown⟩ := hs.released j id hj he
    refine ⟨hlt.trans_le hs.nextFile,hzero,fun k => ?_⟩
    by_cases hk : k = i
    · rw [hk,update_self]
      exact hown
    · rw [update_of_ne hk]
      exact hneeds k

theorem reconciled_move (h : Reconciled hash Λ db) (hk : db'.Keyed) (hs : Spares Λ i s db db')
    (hown : s.Holds (hash i) (update Λ i s) db')
    (linked : ∀ p ∈ db'.paths, p.type = 0 → ∃ r ∈ db'.files, p.fileId = some r.id)
    (counts : ∀ r ∈ db'.files, r.count + tally (update Λ i s) (Stake.debit r.id) =
      db'.references r.id + tally (update Λ i s) (Stake.credit r.id))
    (minded : ∀ r ∈ db'.files, 0 < db'.references r.id ∨ ∃ j, (update Λ i s j).minds r.id = true) :
    Reconciled hash (update Λ i s) db' where
  keyed := hk
  linked := linked
  counts := counts
  minded := minded
  stakes j := by
    by_cases hj : j = i
    · subst hj
      rw [update_self]
      exact hown
    · rw [update_of_ne hj]
      exact stakes_spared hs hj (h.stakes j)

theorem reconciled_stake (h : Reconciled hash Λ db) (hdebit : ∀ id, s.debit id = (Λ i).debit id)
    (hcredit : ∀ id, s.credit id = (Λ i).credit id)
    (hminds : ∀ r ∈ db.files, (Λ i).minds r.id = true →
      0 < db.references r.id ∨ ∃ j, (update Λ i s j).minds r.id = true)
    (hneeds : ∀ id, s.needs id = true → ∀ j, Λ j ≠ .releasing id)
    (hown : s.Holds (hash i) (update Λ i s) db) : Reconciled hash (update Λ i s) db := by
  refine reconciled_move h h.keyed ⟨fun _ _ r hr _ => ⟨r,hr,rfl,rfl⟩,fun q hq _ => hq,le_rfl,le_rfl,
    fun j id _ he => ⟨?_,?_⟩⟩ hown h.linked ?_ ?_
  · have hst := h.stakes j
    rw [he] at hst
    exact hst.2.1
  · by_contra hn
    exact hneeds id (by simpa using hn) j he
  · intro r hr
    rw [tally_same (hdebit r.id),tally_same (hcredit r.id)]
    exact h.counts r hr
  · intro r hr
    rcases h.minded r hr with hp | ⟨j,hj⟩
    · exact .inl hp
    · by_cases hji : j = i
      · exact hminds r hr (hji ▸ hj)
      · exact .inr ⟨j,by rw [update_of_ne hji]; exact hj⟩

omit [DecidableEq ι] in
theorem needed_row (h : Reconciled hash Λ db) {id : ℕ} (hn : (Λ i).needs id = true) :
    ∃ r ∈ db.files, r.id = id := by
  have hst := h.stakes i
  cases he : Λ i <;> rw [he] at hn hst <;> simp only [Stake.needs,decide_eq_true_eq,reduceCtorEq] at hn
  case found | owing | removing =>
    subst hn
    exact hst
  case entered =>
    subst hn
    obtain ⟨r,hr,hid,-⟩ := hst
    exact ⟨r,hr,hid⟩

omit [DecidableEq ι] in
theorem needs_released (h : Reconciled hash Λ db) {j : ι} {id : ℕ} (he : Λ j = .releasing id) :
    db.references id = 0 ∧ ∀ k, (Λ k).needs id = false := by
  have hst := h.stakes j
  rw [he] at hst
  exact hst.2

omit [DecidableEq ι] in
theorem needs_below (h : Reconciled hash Λ db) {id : ℕ} (hn : (Λ i).needs id = true) :
    id < db.nextFile := by
  obtain ⟨r,hr,rfl⟩ := needed_row h hn
  exact h.keyed.fileIds.below r hr

omit [DecidableEq ι] in
theorem references_next (h : Reconciled hash Λ db) : db.references db.nextFile = 0 := by
  by_contra hpos
  obtain ⟨p,hp,ht,he⟩ := references_positive.mp (Nat.pos_of_ne_zero hpos)
  obtain ⟨r,hr,hid⟩ := h.linked p hp ht
  have hlt := h.keyed.fileIds.below r hr
  have hsame : r.id = db.nextFile := Option.some.inj (hid.symm.trans he)
  omega

omit [DecidableEq ι] in
theorem tally_next (h : Reconciled hash Λ db) {f : Stake → Bool}
    (hf : ∀ s, f s = true → s.needs db.nextFile = true) : tally Λ f = 0 := by
  refine (tally_zero Λ f).mpr fun j => ?_
  by_contra hj
  have hlt := needs_below h (hf _ (by simpa using hj))
  omega

theorem debit_needs {id : ℕ} (h : s.debit id = true) : s.needs id = true := by
  cases s <;> first | exact h | cases h

theorem credit_needs {id : ℕ} (h : s.credit id = true) : s.needs id = true := by
  cases s <;> first | exact h | cases h

theorem reconciled_enter (h : Reconciled hash Λ db) (hi : (Λ i).settled = true) {cell : List ℕ} {size : ℤ}
    (hk : (db.addFile cell size).Keyed) (hh : Hex.hexLower cell = hash i) :
    Reconciled hash (update Λ i (.entered db.nextFile)) (db.addFile cell size) := by
  have hrow : (⟨db.nextFile,cell,size,1⟩ : FileRow) ∈ (db.addFile cell size).files :=
    List.mem_append_right _ (List.mem_singleton_self _)
  have hnew : (Stake.entered db.nextFile).minds db.nextFile = true := decide_eq_true rfl
  refine reconciled_move h hk ⟨fun _ _ r hr _ => ⟨r,List.mem_append_left _ hr,rfl,rfl⟩,
    fun q hq _ => hq,Nat.le_succ _,le_rfl,fun j id _ he => ?_⟩ ⟨_,hrow,rfl,hh⟩ ?_ ?_ ?_
  · have hst := h.stakes j
    rw [he] at hst
    refine ⟨hst.2.1,decide_eq_false fun hid => ?_⟩
    have hlt := hst.1
    omega
  · intro p hp ht
    obtain ⟨r,hr,hid⟩ := h.linked p hp ht
    exact ⟨r,List.mem_append_left _ hr,hid⟩
  · intro r hr
    change r.count+_ = db.references r.id+_
    have hcredit := tally_update Λ i (.entered db.nextFile) (Stake.credit r.id)
    rw [(Stake.settled_calm hi r.id).2.1] at hcredit
    rw [tally_same (by rw [(Stake.settled_calm hi r.id).1]; rfl)]
    rcases List.mem_append.mp hr with hr | hr
    · have hlt := h.keyed.fileIds.below r hr
      have hcount := h.counts r hr
      have hother : (Stake.entered db.nextFile).credit r.id = false := decide_eq_false (by omega)
      rw [hother] at hcredit
      simp only [Bool.toNat_false,Nat.add_zero] at hcredit
      omega
    · obtain rfl := List.mem_singleton.mp hr
      have hone : (Stake.entered db.nextFile).credit db.nextFile = true := decide_eq_true rfl
      dsimp only at hcredit ⊢
      rw [hone,tally_next h fun _ => credit_needs] at hcredit
      rw [tally_next h fun _ => debit_needs,references_next h]
      simp only [Bool.toNat_false,Bool.toNat_true,Nat.add_zero] at hcredit
      omega
  · intro r hr
    rcases List.mem_append.mp hr with hr | hr
    · rcases h.minded r hr with hp | ⟨j,hj⟩
      · exact .inl hp
      · exact .inr ⟨j,minded_other (Stake.settled_calm hi r.id).2.2 hj⟩
    · obtain rfl := List.mem_singleton.mp hr
      exact .inr ⟨i,by rw [update_self]; exact hnew⟩

theorem reconciled_link (h : Reconciled hash Λ db) {id : ℕ} (hn : (Λ i).needs id = true)
    {userId : ℤ} {path fileName : CString.Text} {parentId : ℕ}
    (hk : (db.addPath userId path (some id) parentId fileName 0).Keyed)
    (hsum : ∀ n, (s.debit n).toNat+((Λ i).credit n).toNat =
      ((Λ i).debit n).toNat+(s.credit n).toNat+if id = n then 1 else 0)
    (hminds : ∀ n, (Λ i).minds n = true → n = id) (hneeds : ∀ n, s.needs n = true → n = id)
    (hown : s.Holds (hash i) (update Λ i s) (db.addPath userId path (some id) parentId fileName 0)) :
    Reconciled hash (update Λ i s) (db.addPath userId path (some id) parentId fileName 0) := by
  have hrefs : ∀ n, (db.addPath userId path (some id) parentId fileName 0).references n =
      db.references n+if id = n then 1 else 0 := by
    intro n
    rw [references_addPath]
    simp
  refine reconciled_move h hk ⟨fun _ _ r hr _ => ⟨r,hr,rfl,rfl⟩,fun q hq hlt => ?_,le_rfl,
    Nat.le_succ _,fun j n _ he => ?_⟩ hown ?_ ?_ ?_
  · rcases List.mem_append.mp hq with hq | hq
    · exact hq
    · obtain rfl := List.mem_singleton.mp hq
      exact absurd hlt (lt_irrefl _)
  · obtain ⟨hzero,hfree⟩ := needs_released h he
    have hne : id ≠ n := by
      rintro rfl
      exact Bool.false_ne_true ((hfree i).symm.trans hn)
    rw [hrefs,if_neg hne]
    refine ⟨hzero,?_⟩
    by_contra hs
    exact hne (hneeds n (by simpa using hs)).symm
  · intro p hp ht
    rcases List.mem_append.mp hp with hp | hp
    · exact h.linked p hp ht
    · obtain rfl := List.mem_singleton.mp hp
      obtain ⟨r,hr,rfl⟩ := needed_row h hn
      exact ⟨r,hr,rfl⟩
  · intro r hr
    have hcount := h.counts r hr
    have hdebit := tally_update Λ i s (Stake.debit r.id)
    have hcredit := tally_update Λ i s (Stake.credit r.id)
    have hboth := hsum r.id
    rw [hrefs]
    omega
  · intro r hr
    by_cases hid : id = r.id
    · refine .inl ?_
      rw [hrefs,if_pos hid]
      omega
    · rcases h.minded r hr with hp | ⟨j,hj⟩
      · refine .inl ?_
        rw [hrefs]
        omega
      · refine .inr ⟨j,minded_other ?_ hj⟩
        by_contra hm
        exact hid (hminds r.id (by simpa using hm)).symm

omit [Fintype ι] [DecidableEq ι] in
theorem references_files (files : List FileRow) (id : ℕ) :
    ({ db with files := files } : Db).references id = db.references id := rfl

theorem reconciled_recount (h : Reconciled hash Λ db) {f : FileRow → FileRow}
    (hk : ({ db with files := db.files.map f } : Db).Keyed)
    (hf : ∀ r, (f r).id = r.id ∧ (f r).sha256sum = r.sha256sum)
    (hsum : ∀ r ∈ db.files, (f r).count+(s.debit r.id).toNat+((Λ i).credit r.id).toNat =
      r.count+((Λ i).debit r.id).toNat+(s.credit r.id).toNat)
    (hminds : ∀ n, (Λ i).minds n = true → s.minds n = true) (hneeds : ∀ n, s.needs n = false)
    (hown : s.Holds (hash i) (update Λ i s) { db with files := db.files.map f }) :
    Reconciled hash (update Λ i s) { db with files := db.files.map f } := by
  refine reconciled_move h hk ⟨fun _ _ r hr _ => ⟨f r,List.mem_map_of_mem hr,hf r⟩,fun q hq _ => hq,
    le_rfl,le_rfl,fun j n _ he => ⟨(needs_released h he).1,hneeds n⟩⟩ hown ?_ ?_ ?_
  · intro p hp ht
    obtain ⟨r,hr,hid⟩ := h.linked p hp ht
    exact ⟨f r,List.mem_map_of_mem hr,by rw [(hf r).1]; exact hid⟩
  · intro x hx
    obtain ⟨r,hr,rfl⟩ := List.mem_map.mp hx
    rw [(hf r).1,references_files]
    have hcount := h.counts r hr
    have hdebit := tally_update Λ i s (Stake.debit r.id)
    have hcredit := tally_update Λ i s (Stake.credit r.id)
    have hboth := hsum r hr
    omega
  · intro x hx
    obtain ⟨r,hr,rfl⟩ := List.mem_map.mp hx
    rw [(hf r).1,references_files]
    rcases h.minded r hr with hp | ⟨j,hj⟩
    · exact .inl hp
    · refine .inr ⟨j,?_⟩
      by_cases hji : j = i
      · subst hji
        rw [update_self]
        exact hminds r.id hj
      · rw [update_of_ne hji]
        exact hj

theorem reconciled_addRef (h : Reconciled hash Λ db) {id : ℕ} (hi : Λ i = .owing id) :
    Reconciled hash (update Λ i .free) (db.addRef id) := by
  refine reconciled_recount h (keyed_addRef h.keyed id) (fun r => by split <;> exact ⟨rfl,rfl⟩)
    (fun r _ => ?_) (fun n hn => ?_) (fun _ => rfl) trivial
  · rw [hi]
    by_cases hid : r.id = id
    · rw [if_pos hid]
      simp [Stake.debit,Stake.credit,hid]
    · rw [if_neg hid]
      simp [Stake.debit,Stake.credit,Ne.symm hid]
  · rw [hi] at hn
    cases hn

/-- The count of a path that is gone is subtracted, while no other addition is owed. -/
theorem reconciled_subRef (h : Reconciled hash Λ db) {id : ℕ} (hi : Λ i = .removing id)
    (hpaid : ∀ j, Λ j ≠ .owing id) :
    Reconciled hash (update Λ i (.counted id)) (db.subRef id) := by
  have hone : (Λ i).credit id = true := by
    rw [hi]
    exact decide_eq_true rfl
  refine reconciled_recount h (keyed_subRef h.keyed id) (fun r => by split <;> exact ⟨rfl,rfl⟩)
    (fun r hr => ?_) (fun n hn => ?_) (fun _ => rfl) trivial
  · by_cases hid : r.id = id
    · have hnone : tally Λ (Stake.debit r.id) = 0 := by
        refine (tally_zero Λ _).mpr fun j => ?_
        cases hj : Λ j with
        | owing n => exact decide_eq_false fun hn => hpaid j (by rw [hj,hn,hid])
        | _ => rfl
      have hpos : 0 < tally Λ (Stake.credit r.id) := tally_pos (i := i) (by rw [hid]; exact hone)
      have hcount := h.counts r hr
      have hfull : r.id = id ∧ 0 < r.count := ⟨hid,by omega⟩
      rw [if_pos hfull,hi]
      simp [Stake.debit,Stake.credit,hid]
      omega
    · rw [if_neg (fun hc => hid hc.1),hi]
      simp [Stake.debit,Stake.credit,Ne.symm hid]
  · rw [hi] at hn
    exact hn

theorem reconciled_dropPath (h : Reconciled hash Λ db) {id : ℕ} {q : PathRow}
    (hi : Λ i = .aimed q.id id) (hq : q ∈ db.paths) :
    Reconciled hash (update Λ i (.removing id)) (db.dropPath q.userId q.id) := by
  have hst := h.stakes i
  rw [hi] at hst
  obtain ⟨ht,he⟩ := hst.2 q hq rfl
  obtain ⟨row,hrow,hid⟩ := h.linked q hq ht
  obtain rfl : id = row.id := Option.some.inj (he.symm.trans hid)
  have hrefs := references_dropPath h.keyed hq
  have hthis : db.references row.id ≠ 0 := by
    have hpos := references_positive.mpr ⟨q,hq,ht,he⟩
    omega
  refine reconciled_move h (keyed_dropPath h.keyed _ _) ⟨fun _ _ r hr _ => ⟨r,hr,rfl,rfl⟩,
    fun x hx _ => List.mem_of_mem_filter hx,le_rfl,le_rfl,fun j n _ hj => ?_⟩ ⟨row,hrow,rfl⟩
    (fun p hp => h.linked p (List.mem_of_mem_filter hp)) ?_ ?_
  · have hzero := (needs_released h hj).1
    have hless := hrefs n
    refine ⟨by omega,decide_eq_false fun hn => ?_⟩
    rw [hn] at hthis
    exact hthis hzero
  · intro r hr
    have hcount := h.counts r hr
    have hless := hrefs r.id
    have hcredit := tally_update Λ i (.removing row.id) (Stake.credit r.id)
    rw [tally_same (by rw [hi]; rfl)]
    rw [hi] at hcredit
    by_cases hsame : row.id = r.id
    · have hone : (Stake.removing row.id).credit r.id = true := decide_eq_true hsame
      rw [if_pos ⟨ht,by rw [he,hsame]⟩] at hless
      rw [hone] at hcredit
      simp only [Stake.credit,Bool.toNat_false,Bool.toNat_true,Nat.add_zero] at hcredit
      omega
    · have hnone : (Stake.removing row.id).credit r.id = false := decide_eq_false hsame
      rw [if_neg (fun hc => hsame (Option.some.inj (he.symm.trans hc.2)))] at hless
      rw [hnone] at hcredit
      simp only [Stake.credit,Bool.toNat_false,Nat.add_zero] at hcredit
      omega
  · intro r hr
    have hless := hrefs r.id
    by_cases hsame : row.id = r.id
    · exact .inr ⟨i,by rw [update_self]; exact decide_eq_true hsame⟩
    · rw [if_neg (fun hc => hsame (Option.some.inj (he.symm.trans hc.2)))] at hless
      rcases h.minded r hr with hp | ⟨j,hj⟩
      · exact .inl (by omega)
      · exact .inr ⟨j,minded_other (by rw [hi]; rfl) hj⟩

/-- A count of zero is read while no other execution is about to refer to the row. -/
theorem reconciled_unused (h : Reconciled hash Λ db) {r : FileRow} (hr : r ∈ db.files)
    (hi : Λ i = .counted r.id) (hzero : r.count = 0)
    (hidle : ∀ j, Λ j ≠ .owing r.id ∧ Λ j ≠ .found r.id) :
    Reconciled hash (update Λ i (.releasing r.id)) db := by
  have hdebit : tally Λ (Stake.debit r.id) = 0 := by
    refine (tally_zero Λ _).mpr fun j => ?_
    cases hj : Λ j with
    | owing n => exact decide_eq_false fun hn => (hidle j).1 (by rw [hj,hn])
    | _ => rfl
  have hcount := h.counts r hr
  have hcredit : tally Λ (Stake.credit r.id) = 0 := by omega
  have hneeds : ∀ j, (Λ j).needs r.id = false := by
    intro j
    have hnone := (tally_zero Λ _).mp hcredit j
    have howed := (tally_zero Λ _).mp hdebit j
    cases hj : Λ j with
    | found n => exact decide_eq_false fun hn => (hidle j).2 (by rw [hj,hn])
    | entered n | removing n => rw [hj] at hnone; exact hnone
    | owing n => rw [hj] at howed; exact howed
    | _ => rfl
  refine reconciled_stake h (fun _ => by rw [hi]; rfl) (fun _ => by rw [hi]; rfl) ?_
    (fun _ hn => absurd hn Bool.false_ne_true) ⟨h.keyed.fileIds.below r hr,by omega,fun j => ?_⟩
  · intro x _ hx
    refine .inr ⟨i,?_⟩
    rw [update_self]
    rw [hi] at hx
    exact hx
  · by_cases hj : j = i
    · rw [hj,update_self]
      rfl
    · rw [update_of_ne hj]
      exact hneeds j

theorem reconciled_used (h : Reconciled hash Λ db) {id : ℕ} (hi : Λ i = .counted id)
    (hcount : ∀ r ∈ db.files, r.id = id → 0 < r.count) :
    Reconciled hash (update Λ i .free) db := by
  refine reconciled_stake h (fun _ => by rw [hi]; rfl) (fun _ => by rw [hi]; rfl) ?_
    (fun _ hn => absurd hn Bool.false_ne_true) trivial
  intro r hr hm
  rw [hi] at hm
  have hid : id = r.id := of_decide_eq_true hm
  have hpos := hcount r hr hid.symm
  have hsum := h.counts r hr
  by_cases hrefs : 0 < db.references r.id
  · exact .inl hrefs
  · have hcredit : tally Λ (Stake.credit r.id) ≠ 0 := by omega
    obtain ⟨j,hj⟩ : ∃ j, (Λ j).credit r.id = true := by
      by_contra hnone
      refine hcredit ((tally_zero Λ _).mpr fun j => ?_)
      by_contra hj
      exact hnone ⟨j,by simpa using hj⟩
    have hji : j ≠ i := by
      rintro rfl
      rw [hi] at hj
      cases hj
    refine .inr ⟨j,?_⟩
    rw [update_of_ne hji]
    cases he : Λ j <;> rw [he] at hj <;> first | exact hj | cases hj

theorem reconciled_dropFile (h : Reconciled hash Λ db) {id : ℕ} (hi : Λ i = .releasing id) :
    Reconciled hash (update Λ i .free) (db.dropFile id) := by
  obtain ⟨hzero,hfree⟩ := needs_released h hi
  have hleft : ∀ r ∈ (db.dropFile id).files, r ∈ db.files ∧ r.id ≠ id := by
    intro r hr
    obtain ⟨hr,hid⟩ := List.mem_filter.mp hr
    exact ⟨hr,by simpa using hid⟩
  have hkeep : ∀ r ∈ db.files, r.id ≠ id → r ∈ (db.dropFile id).files :=
    fun r hr hid => List.mem_filter.mpr ⟨hr,by simpa using hid⟩
  refine reconciled_move h (keyed_dropFile h.keyed id) ⟨fun j _ r hr hn => ⟨r,hkeep r hr ?_,rfl,rfl⟩,
    fun q hq _ => hq,le_rfl,le_rfl,fun j n _ he => ⟨(needs_released h he).1,rfl⟩⟩ trivial ?_ ?_ ?_
  · rintro rfl
    exact Bool.false_ne_true ((hfree j).symm.trans hn)
  · intro p hp ht
    obtain ⟨r,hr,he⟩ := h.linked p hp ht
    refine ⟨r,hkeep r hr ?_,he⟩
    rintro rfl
    have hpos : 0 < db.references r.id := references_positive.mpr ⟨p,hp,ht,he⟩
    omega
  · intro r hr
    rw [tally_same (by rw [hi]; rfl),tally_same (by rw [hi]; rfl)]
    exact h.counts r (hleft r hr).1
  · intro r hr
    obtain ⟨hr,hne⟩ := hleft r hr
    rcases h.minded r hr with hp | ⟨j,hj⟩
    · exact .inl hp
    · refine .inr ⟨j,minded_other ?_ hj⟩
      rw [hi]
      exact decide_eq_false (Ne.symm hne)

end Moves

end WindCloud
