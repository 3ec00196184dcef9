import WindCloud.System.PartClient

/-!
# Part transfers

Client and server together: in every interleaving, and wherever the transfer
stops, the part file is what it was or a beginning of what it is to become, and
both sides mean the same number of bytes.
-/

set_option autoImplicit false

namespace WindCloud
open CString Effect Function Client

abbrev PartDuet := Duet Client.Op Client.Op.Res Op Op.Res Link ℤ Unit

/-- A client thread with the task of fetching a part and the server thread that
serves its range. -/
def partDuet (task : GetsPartTask) (ctx : ClientContext) (arg : Text) (first last : ℤ)
    (f : Client.State) (w : World Unit) : PartDuet :=
  ⟨runGetsPartTransfer task,handleGetsRange ctx arg first last,⟨f,w,⟨none,none,[],0⟩⟩⟩

/-- What holds of a part transfer at any time; `old` is the part file before it
and `p` the part. -/
structure PartFetched (strict : Prop) (old p : Content) (path : Text) (P : PartDuet) : Prop where
  file : Fetching old p (P.state.files.content path)
  success : P.left = .ret 0 → P.state.files.content path = fetched old p
  asked : ∀ q, P.state.wire.offset = some q → q.offset = offsetOf old p
  sent : P.state.wire.sent.length ≤ p.length-offsetOf old p
  complete : strict → P.right = .ret () → P.state.wire.sent.length = p.length-offsetOf old p
  received : P.left = .ret 0 → P.state.wire.received = p.length-offsetOf old p
  waits : ∀ once k, P.left = .op (.recvFull once) k →
    P.state.wire.received+once ≤ (p.length-offsetOf old p : ℕ)

section

variable {lib : Library} {strict : Prop} {p c : Content} {first last : ℤ} {s : Link}

theorem resumeOffset_asked {old : Content} : resumeOffset (offsetOf old p) p.length = offsetOf old p := by
  have hle : offsetOf old p ≤ p.length := offsetOf_le
  unfold resumeOffset
  rw [if_neg (by omega)]

/-- The server's side holds in every run, whatever client is on the connection. -/
theorem partDuet_served {P Q : PartDuet} {ctx : ClientContext} {arg : Text} {w : World Unit}
    (h0 : 0 ≤ first) (hle : first ≤ last) (hlast : last < c.length)
    (hfits : (c.length : ℤ) ≤ offMax) (hstored : Stored ctx arg c w) (hs : Silent w P.state)
    (hprog : P.right = handleGetsRange ctx arg first last)
    (run : Duet.Run clientSide (serverSide lib) () () StatAnswers (Serving strict) P Q) :
    Announced (part c first last) Q.state ∧
      (strict → Q.right = .ret () → Complete (part c first last) Q.state) := by
  have hguard : ServesPart lib strict (part c first last) (handleGetsRange ctx arg first last)
      (fun _ s => Done strict (part c first last) s) P.state :=
    serves_handleGetsRange ctx arg h0 hle hlast hfits hstored hs
  rw [← hprog] at hguard
  obtain ⟨s,hmoves,hg⟩ := Duet.right_guarded clientMoves_refl clientMoves_trans
    (fun o s c r s' _ hx => clientSide_moves hx) hguard run
  cases hr : Q.right with
  | ret u =>
    rw [hr] at hg
    exact ⟨announced_moves hg.announced hmoves,fun hst _ => complete_moves (hg.complete hst) hmoves⟩
  | op o k =>
    rw [hr] at hg
    exact ⟨announced_moves hg.1 hmoves,nofun⟩

/-- A part transfer, in every interleaving of its two sides. -/
theorem part_transfer (lib : Library) (strict : Prop) (task : GetsPartTask) (ctx : ClientContext)
    (arg : Text) (c : Content) (first last : ℤ) (f : Client.State) (w : World Unit)
    (h0 : 0 ≤ first) (hle : first ≤ last) (hlast : last < c.length)
    (hfits : (c.length : ℤ) ≤ offMax) (hstored : Stored ctx arg c w) (P : PartDuet)
    (run : Duet.Run clientSide (serverSide lib) () () StatAnswers (Serving strict)
      (partDuet task ctx arg first last f w) P) :
    PartFetched strict (f.content task.partFilePath) (part c first last) task.partFilePath P := by
  set p := part c first last with hp
  have hserved : ∀ Q, Duet.Run clientSide (serverSide lib) () () StatAnswers (Serving strict)
      (partDuet task ctx arg first last f w) Q → Announced p Q.state ∧
        (strict → Q.right = .ret () → Complete p Q.state) :=
    fun Q => partDuet_served h0 hle hlast hfits hstored ⟨rfl,rfl,rfl⟩ rfl
  have hkept := Duet.run_mono (fun o s c h => h.1) (fun _ _ _ h => h)
    (Duet.run_kept (fun Q h => (hserved Q h).1) run)
  have hlen : (p.length : ℤ) = last+1-first := part_length h0 hle hlast
  have hpos : 0 < p.length := by omega
  have hguard := fetches_runGetsPartTransfer task hpos
    (s := (partDuet task ctx arg first last f w).state)
    ⟨rfl,nofun,rfl,rfl,⟨nofun,.inl rfl⟩⟩ rfl
  obtain ⟨s,hmoves,hg⟩ := Duet.left_guarded
    (fun s => ⟨serverMoves_refl s,id⟩)
    (fun s t u h h' => ⟨serverMoves_trans s t u h.moves h'.moves,h'.announced ∘ h.announced⟩)
    (fun o s c r s' h hx => ⟨serverSide_moves hx,fun _ => h.2 r s' hx⟩) hguard hkept
  obtain ⟨hann,hcomplete⟩ := hserved P run
  obtain ⟨hfiles,hoffset,hgot,_,_⟩ := hmoves.moves
  have hfile : Fetching (f.content task.partFilePath) p (P.state.files.content task.partFilePath) ∧
      ∀ q, P.state.wire.offset = some q → q.offset = offsetOf (f.content task.partFilePath) p := by
    rw [hfiles,hoffset]
    cases hl : P.left with
    | ret r =>
      rw [hl] at hg
      exact ⟨hg.file,hg.asked⟩
    | op o k =>
      rw [hl] at hg
      exact ⟨hg.1.file,hg.1.asked⟩
  have hres : ∀ q, P.state.wire.offset = some q → (resumeOffset q.offset p.length).toNat =
      offsetOf (f.content task.partFilePath) p := by
    intro q hq
    rw [hfile.2 q hq,resumeOffset_asked]
    rfl
  refine ⟨hfile.1,?_,hfile.2,?_,?_,?_,?_⟩
  · intro hl
    rw [hl] at hg
    rw [hfiles]
    exact (hg.success rfl).1
  · rcases hann.sent with he | ⟨q,hq,hpre⟩
    · simp [he]
    · have hle := hpre.length_le
      rwa [hres q hq,List.length_drop] at hle
  · intro hst hr
    obtain ⟨q,hq,he⟩ := hcomplete hst hr
    rw [he,hres q hq,List.length_drop]
  · intro hl
    rw [hl] at hg
    obtain ⟨q,hq,he⟩ := (hg.success rfl).2
    have ho := hfile.2 q (hoffset.trans hq)
    have hle : offsetOf (f.content task.partFilePath) p ≤ p.length := offsetOf_le
    rw [hgot]
    omega
  · intro once k hl
    rw [hl] at hg
    obtain ⟨q,hq,he⟩ := hg.1.waits once rfl
    have ho := hfile.2 q (hoffset.trans hq)
    have hle : offsetOf (f.content task.partFilePath) p ≤ p.length := offsetOf_le
    rw [hgot]
    omega

end

namespace OnePart

def content : Content := "abcdef".toList

def hash : List ℕ := List.replicate 32 0

def world : World Unit where
  db :=
    { Db.empty with
      files := [⟨1,hash,6,1⟩]
      paths := [⟨1,1,"/a".toList,some 1,0,"a".toList,0⟩] }
  minted := []
  drawn := []
  node :=
    { storeDir := "../test/server_files".toList
      address := ("127.0.0.1".toList,"9090".toList)
      store := (Inodes.empty []).create
        ("../test/server_files".toList ++ '/'::Hex.hexLower hash) content
      desc := fun _ => none
      conn := fun _ => ⟨[],⟨.gets,0,0,[],[]⟩,fun _ => [],[],[]⟩
      tickets := .zero
      unlinked := [] }

def session : ClientContext := ⟨1,"/".toList,0⟩

def task : GetsPartTask := ⟨0,[],[],[],"a".toList,"a.part".toList⟩

def files : Client.State where
  env := ⟨fun _ => ⟨0,0,[],[],[],[]⟩,fun _ => ⟨0,[],[]⟩,fun _ _ _ => ⟨⟨.gets,0,0,[],[]⟩,fun _ => []⟩,
    fun _ => []⟩
  files := (∅ : AList fun _ : Text => Content).insert "a.part".toList "b".toList
  dirs := []
  asked := .command .gets []
  address := ([],[])
  peer := ⟨⟨.gets,0,0,[],[]⟩,fun _ => []⟩
  stream := []
  output := none
  input := none
  printed := []

def schedule : List (Client.Choice ⊕ Choice) :=
  List.replicate 6 (.inr .ok) ++ List.replicate 5 (.inl .ok) ++
    [.inr .ok,.inr (.count 2),.inr (.count 1),.inr .ok,.inl .ok,.inl (.count 2),.inl .ok,.inl .ok]

theorem stored : Stored session "a".toList content world where
  found := ⟨"/a".toList,_,1,_,0,by decide,rfl,rfl,rfl,rfl,by decide +kernel,by decide +kernel,rfl⟩

def result {Op : Type} {Res : Op → Type} {α : Type} : Program Op Res α → Option α
  | .ret r => some r
  | .op _ _ => none

theorem result_some {Op : Type} {Res : Op → Type} {α : Type} {q : Program Op Res α} {r : α}
    (h : result q = some r) : q = .ret r := by
  cases q with
  | ret a => rw [Option.some.inj h]
  | op o k => cases h

def lib : Library := ⟨fun _ => [],fun _ => none,fun _ _ _ _ _ => none⟩

end OnePart

open OnePart in
theorem one_part_transfer : ∃ P, P.left = .ret 0 ∧ P.right = .ret () ∧
    P.state.files.content "a.part".toList = "bcde".toList ∧
    PartFetched True "b".toList "bcde".toList "a.part".toList P := by
  have h : (Duet.replay clientSide (serverSide lib) () () (fun _ _ c => decide (c ≠ .fault))
      (fun _ _ c => decide (c ≠ .fault)) schedule
      (partDuet task session "a".toList 1 4 files world)).map
      (fun P => (result P.left,result P.right,P.state.files.content "a.part".toList)) =
      some (some 0,some (),"bcde".toList) := by
    decide +kernel
  obtain ⟨P,hP,ho⟩ := Option.map_eq_some_iff.mp h
  obtain ⟨hleft,hright,hfile⟩ : result P.left = some 0 ∧ result P.right = some () ∧
      P.state.files.content "a.part".toList = "bcde".toList := by simpa using ho
  have hrun : Duet.Run clientSide (serverSide lib) () () StatAnswers (Serving True)
      (partDuet task session "a".toList 1 4 files world) P :=
    Duet.run_mono (fun o s c h path _ => of_decide_eq_true h)
      (fun o s c h _ => of_decide_eq_true h) (Duet.replay_run schedule hP)
  exact ⟨P,result_some hleft,result_some hright,hfile,
    part_transfer lib True task session "a".toList content 1 4 files world (by decide) (by decide)
      (by decide) (by decide) stored P hrun⟩

end WindCloud
