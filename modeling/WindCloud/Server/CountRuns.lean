import WindCloud.Server.Commands
import WindCloud.Server.Counts
import WindCloud.Server.UploadRuns

/-!
# Counts over whole runs

From empty tables on, whatever requests are served one after the other, the
count of a row is the number of its references, and `rm` unlinks the store file
of the last one.
-/

set_option autoImplicit false

namespace WindCloud
open CString Effect Function Runs

/-- What is unlinked is the file whose last reference has gone, and it is unless
the store directory or its removal fails or its path is too long. -/
structure UnlinksLast (ok : Op → World Unit → Choice → Prop) (w w' : World Unit) : Prop where
  only : w'.node.unlinked = w.node.unlinked ∨
    ∃ h, LastGone w.db w'.db h ∧ w'.node.unlinked = w.node.unlinked ++ [storePath w.node.storeDir h]
  removed : RemovalsHold ok → ∀ h, LastGone w.db w'.db h →
    (storePath w.node.storeDir h).length < maxPathLen →
      w'.node.unlinked = w.node.unlinked ++ [storePath w.node.storeDir h]

section Steps

variable {lib : Library} {check : Op → World Unit → Choice → Bool} {s s' : Site Unit}
  {e : Round Choice} {db db' : Db} {ctx : ClientContext}

theorem emptyFileBytes_cell : emptyFileBytes.length = 32 ∧ ∀ b ∈ emptyFileBytes, b < 256 := by
  decide +kernel

theorem unhex_cell {h : Text} {bs : List ℕ} (hh : Hex.IsHash h) (hb : Hex.unhex h = some bs) :
    bs.length = 32 ∧ ∀ b ∈ bs, b < 256 := by
  obtain ⟨bs',hb',hl,-⟩ := Hex.unhex_hash hh
  obtain rfl := Option.some.inj (hb'.symm.trans hb)
  exact ⟨hl,Hex.unhex_lt hb⟩

theorem consistent_commanded (h : db.Consistent) {data : Text} {cmdType : CmdType}
    (hc : Commanded db ctx data cmdType db') : db'.Consistent := by
  cases hc with
  | kept => exact h
  | registered username passwordHash salt new => exact consistent_addUser h new
  | touched => exact consistent_touch h ctx data emptyFileBytes_cell
  | removed => exact consistent_rm h ctx data
  | made => exact consistent_mkdir h ctx data
  | dropped => exact consistent_rmdir h ctx data

theorem consistent_uploaded (h : db.Consistent) {arg : Text} {bs : List ℕ} {size : ℤ}
    (hb : bs.length = 32 ∧ ∀ b ∈ bs, b < 256) (hu : Uploaded db ctx arg bs size db') :
    db'.Consistent := by
  have hlink : Uploadable db ctx arg → (db.upload ctx arg bs size).Consistent := by
    intro hnew
    obtain ⟨-,-,-,hn⟩ := vacant_true hnew.vacant
    exact consistent_link h _ _ size hn hb
  cases hu with
  | kept => exact h
  | linked new => exact hlink new
  | registered new fileId ip port => exact consistent_putSource (hlink new) fileId ip port

/-- Every request keeps the keys and the counts. -/
theorem consistent_step (hok : StatementsHold (Checked check)) (h : s.world.db.Consistent)
    (hw : e.wellFormed) (hx : s.step (checkedServer lib check) () e = some s') :
    s'.world.db.Consistent := by
  cases he : e.request with
  | connect k =>
    obtain rfl := step_connect he hx
    exact h
  | command k cmdType data =>
    obtain ⟨ctx,-,hd⟩ := command_dispatched hok he hx
    exact consistent_commanded h hd.tables
  | upload userId fullPath peer =>
    obtain ⟨-,-,hdb⟩ := upload_uploaded hok he hw hx
    rcases hdb with hdb | ⟨bs,ctx,arg,hb,-,hup⟩
    · rw [hdb]
      exact h
    · have hh : Hex.IsHash peer.hello.hash := by
        unfold Round.wellFormed at hw
        rw [he] at hw
        exact hw
      exact consistent_uploaded h (unhex_cell hh hb) hup

theorem removal_tables {data : Text} (hc : Commanded db ctx data .rm db') :
    db' = if ctx.userId = -1 then db else db.rm ctx data := by
  cases hc with
  | kept _ idle =>
    rcases idle with hout | hrest
    · rw [if_pos hout]
    · cases hrest
  | removed inside => rw [if_neg inside]

theorem removal_unlinks (hok : StatementsHold (Checked check)) (h : s.world.db.Consistent) {k : ℕ}
    {data : Text} (he : e.request = .command k .rm data)
    (hx : s.step (checkedServer lib check) () e = some s') :
    UnlinksLast (Checked check) s.world s'.world := by
  obtain ⟨ctx,-,hd⟩ := command_dispatched hok he hx
  have hgone : ∀ hash, s.world.db.unlinks (s.sessions k) .rm data = some hash ↔
      LastGone s.world.db s'.world.db hash := by
    intro hash
    rw [removal_tables hd.tables,Db.unlinks]
    by_cases hout : (s.sessions k).userId = -1
    · rw [if_neg fun hc => hc.2 hout,if_pos hout]
      exact ⟨fun hn => absurd hn.symm (Option.some_ne_none hash),fun hg => absurd hg.1 hg.2⟩
    · rw [if_pos ⟨rfl,hout⟩,if_neg hout]
      exact rm_last h
  constructor
  · rcases hd.unlinks.only with hsame | ⟨hash,hlast,hu⟩
    · exact .inl hsame
    · exact .inr ⟨hash,(hgone hash).mp hlast,hu⟩
  · intro hrm hash hlast hfit
    exact hd.unlinks.removed hrm hash ((hgone hash).mpr hlast) hfit

end Steps

/-- From empty tables on, each count is the number of references, each reference
leads to a row and each row has one, and `rm` unlinks the last one's file. -/
theorem counts_kept (lib : Library) (check : Op → World Unit → Choice → Bool) (s t : Site Unit)
    (hok : StatementsHold (Checked check)) (hs : s.world.db = Db.empty)
    (run : SiteRun lib check s t) :
    t.world.db.Counted ∧ ∀ (e : Round Choice) (k : ℕ) (data : Text) (t' : Site Unit),
      e.request = .command k .rm data → t.step (checkedServer lib check) () e = some t' →
      UnlinksLast (Checked check) t.world t'.world := by
  have hinv : t.world.db.Consistent := by
    refine reached_invariant (I := fun s => s.world.db.Consistent) ?_ ?_ run
    · rw [hs]
      exact empty_consistent
    · intro u e u' hu hw hx
      exact consistent_step hok hu hw hx
  exact ⟨hinv.counted,fun e k data t' he hx => removal_unlinks hok hinv he hx⟩

namespace SharedContent

/-- Two users have logged in. -/
def start : Site Unit := ⟨TwoUploads.world Unit,fun k => ⟨k+1,"/".toList,0⟩⟩

def peer : Connection := TwoUploads.client

/-- One uploads a file, the other one the same content, the first one removes it. -/
def rounds : List (Round Choice) :=
  [⟨.upload 1 "/a".toList peer,List.replicate 9 .ok ++ [.count 2,.count 2] ++ List.replicate 7 .ok⟩,
    ⟨.upload 2 "/b".toList peer,List.replicate 8 .ok⟩,
    ⟨.command 0 .rm "a".toList,List.replicate 7 .ok⟩]

/-- The second one removes it as well, and with it the last reference. -/
def last : Round Choice := ⟨.command 1 .rm "b".toList,List.replicate 11 .ok⟩

def flawless (_ : Op) (_ : World Unit) (c : Choice) : Bool := decide (c ≠ .fault)

theorem flawless_statements : StatementsHold (Checked flawless) := by
  intro t w c hc
  exact of_decide_eq_true hc

end SharedContent

open SharedContent in
theorem shared_content_counted :
    ∃ t t', SiteRun TwoUploads.lib flawless start t ∧
      t.step (checkedServer TwoUploads.lib flawless) () last = some t' ∧ t.world.db.Counted ∧
      UnlinksLast (Checked flawless) t.world t'.world ∧
      t'.world.node.unlinked = [storePath t.world.node.storeDir TwoUploads.hash] := by
  have h : ((replay (Site.step (checkedServer TwoUploads.lib flawless) ())
      (fun _ e => decide e.wellFormed) rounds start).bind fun t =>
        (t.step (checkedServer TwoUploads.lib flawless) () last).map fun t' =>
          (t'.world.node.unlinked,storePath t.world.node.storeDir TwoUploads.hash)) =
      some ([storePath (TwoUploads.world Unit).node.storeDir TwoUploads.hash],
        storePath (TwoUploads.world Unit).node.storeDir TwoUploads.hash) := by decide +kernel
  obtain ⟨t,ht,h⟩ := Option.bind_eq_some_iff.mp h
  obtain ⟨t',ht',ho⟩ := Option.map_eq_some_iff.mp h
  have hrun : SiteRun TwoUploads.lib flawless start t :=
    reached_mono (fun _ _ he => of_decide_eq_true he) (replay_reached ht)
  obtain ⟨hcounted,hrm⟩ :=
    counts_kept TwoUploads.lib flawless start t flawless_statements rfl hrun
  refine ⟨t,t',hrun,ht',hcounted,hrm last 1 "b".toList t' rfl ht',?_⟩
  obtain ⟨hu,hpath⟩ := Prod.mk.inj ho
  rw [hu,hpath]

end WindCloud
