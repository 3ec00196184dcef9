import WindCloud.Server.UploadOutline

/-!
# Runs of interleaved uploads

From empty tables and an empty store, careful steps keep a known upload and its
store file together. A run without any failure in which one upload reads the
size of a file another one has just extended does not.
-/

set_option autoImplicit false

namespace WindCloud
open CString Effect Function

/-- No table row, no store file, no open file, and honest clients that were
sent nothing yet. -/
structure FreshUploads {ι : Type} (content : Text → Content) (w : World ι) : Prop where
  db : w.db = Db.empty
  store : ∀ p, w.node.store.names p = none
  desc : ∀ i, w.node.desc i = none
  honest : ∀ i, Honest content (w.node.conn i)
  sent : ∀ i, (w.node.conn i).sent = []

/-- A row names the hash, or a client that declared it was told of its upload. -/
def UploadKnown {ι : Type} (h : Text) (w : World ι) : Prop :=
  (∃ r ∈ w.db.files, Hex.hexLower r.sha256sum = h) ∨
    ∃ i, (w.node.conn i).hello.hash = h ∧ Told (w.node.conn i)

def StoreComplete {ι : Type} (content : Text → Content) (w : World ι) : Prop :=
  ∀ h, UploadKnown h w → w.node.store.read (storePath w.node.storeDir h) = some (content h)

section

variable {ι : Type} {content : Text → Content} {w : World ι}

def FreshUploads.uploads (h : FreshUploads content w) : Uploads ι where
  content := content
  storeDir := w.node.storeDir
  hello := fun i => (w.node.conn i).hello
  hash := fun i => (h.honest i).hash
  size := fun i => (h.honest i).size

theorem sound_fresh (h : FreshUploads content w) : Sound h.uploads (fun _ => .idle) w where
  storeDir := rfl
  hello := fun _ => rfl
  answer := fun i => (h.honest i).answer
  desc := by simp [h.desc]
  whole := by simp [h.store]
  full := by simp [h.store]
  rows := by simp [h.db,Db.empty]
  told := by simp [Told,h.sent]
  stages := h.desc

theorem sound_complete {U : Uploads ι} {Λ : ι → Stage} (h : Sound U Λ w) :
    StoreComplete U.content w := by
  intro hash hk
  have hrow : ∃ r ∈ w.db.files, Hex.hexLower r.sha256sum = hash := by
    rcases hk with hr | ⟨i,rfl,ht⟩
    · exact hr
    · rw [h.hello i]
      exact h.told i ht
  obtain ⟨r,hr,rfl⟩ := hrow
  obtain ⟨n,hn,hc⟩ := h.rows r hr
  rw [h.storeDir,Inodes.read_eq hn,hc]

end

/-- Any connection may break at any point; nothing else fails. -/
def ConnectionFaults {ι : Type} (_ : ι) (o : Op) (_ : World ι) (c : Choice) : Prop :=
  c = .fault → o.network = true

/-- Uploads of honest clients, interleaved in any way by careful steps, leave
no hash known whose store file is not its content. -/
theorem careful_uploads_complete {ι : Type} [DecidableEq ι] (lib : Library)
    (content : Text → Content) (ctx : ι → ClientContext) (arg : ι → Text) (w : World ι)
    (hw : FreshUploads content w) {P : Pool Op Op.Res ι (World ι) Unit}
    (run : Pool.Run (server ι lib) Careful ⟨fun i => handlePuts (ctx i) (arg i),w⟩ P) :
    StoreComplete content P.state := by
  obtain ⟨Λ,hi,_⟩ := outline_run (Q := fun _ _ _ => True)
    (fun i => staged_handlePuts (U := hw.uploads) (ctx i) (arg i)) (sound_fresh hw) run
  exact sound_complete hi

namespace TwoUploads

def hash : Text :=
  "fb8e20fc2e4c3f248c60c39bd652f3c1347298bb977b8b4d5903b85055620603".toList

def content : Content := "ab".toList

def client : Connection where
  auth := []
  hello := ⟨.puts,2,0,"a".toList,hash⟩
  answer := fun q => content.drop q.offset.toNat
  stream := []
  sent := []

def world (ι : Type) : World ι where
  db := .empty
  minted := []
  drawn := []
  node :=
    { storeDir := "../test/server_files".toList
      address := ("127.0.0.1".toList,"9090".toList)
      store := .empty []
      desc := fun _ => none
      conn := fun _ => client
      tickets := .zero
      unlinked := [] }

def lib : Library := ⟨fun _ => [],fun _ => none,fun _ _ _ _ _ => none⟩

def start (ι : Type) (userId : ι → ℤ) : Pool Op Op.Res ι (World ι) Unit :=
  ⟨fun i => handlePuts ⟨userId i,"/".toList,0⟩ "a".toList,world ι⟩

theorem honest : Honest (fun _ => content) client where
  hash := by decide +kernel
  size := by decide
  answer := fun _ => rfl

theorem fresh (ι : Type) : FreshUploads (fun _ => content) (world ι) where
  db := rfl
  store := fun _ => rfl
  desc := fun _ => rfl
  honest := fun _ => honest
  sent := fun _ => rfl

def single : List (Unit × Choice) :=
  List.replicate 9 ((),.ok) ++ [((),.count 2),((),.count 2)] ++ List.replicate 7 ((),.ok)

/-- The first upload is interrupted after its extension. Before that the second
one reads the full size, receives nothing and completes. -/
def overlap : List (Bool × Choice) :=
  List.replicate 8 (false,.ok) ++ List.replicate 14 (true,.ok) ++
    [(false,.ok),(false,.fault),(false,.ok),(false,.fault),(false,.ok)]

def observe {ι : Type} (P : Pool Op Op.Res ι (World ι) Unit) : Option Content × List Text :=
  (P.state.node.store.read (storePath P.state.node.storeDir hash),
    P.state.db.files.map fun r => Hex.hexLower r.sha256sum)

def steady {ι : Type} (i : ι) (o : Op) (w : World ι) (c : Choice) : Bool :=
  decide (c ≠ .fault) &&
    match o with
    | .ftruncate size =>
      (w.node.desc i).all fun d => decide (((w.node.store.data d.inode).length : ℤ) ≤ size)
    | _ => true

theorem steady_careful (i : Unit) (o : Op) (w : World Unit) (c : Choice)
    (h : steady i o w c = true) : Careful i o w c := by
  obtain ⟨hc,ho⟩ : decide (c ≠ .fault) = true ∧ _ := by simpa only [steady,Bool.and_eq_true] using h
  have hc' : c ≠ .fault := by simpa using hc
  cases o with
  | fstat => exact .inr fun d _ j _ hj => absurd rfl hj
  | ftruncate size =>
    intro d hd hlt
    simp only [hd,Option.all_some,decide_eq_true_eq] at ho
    omega
  | mmap size => exact hc'
  | lseek pos => exact hc'
  | write buf => exact hc'
  | _ => trivial

end TwoUploads

open TwoUploads

theorem single_upload_complete :
    ∃ P, Pool.Run (server Unit lib) Careful (start Unit fun _ => 1) P ∧
      UploadKnown hash P.state ∧
      P.state.node.store.read (storePath P.state.node.storeDir hash) = some content := by
  have h : (Pool.replay (server Unit lib) steady single (start Unit fun _ => 1)).map observe =
      some (some content,[hash]) := by decide +kernel
  obtain ⟨P,hP,ho⟩ := Option.map_eq_some_iff.mp h
  have hrun := Pool.run_mono steady_careful (Pool.replay_run single hP)
  have hrow : UploadKnown hash P.state := by
    have hm : hash ∈ P.state.db.files.map fun r => Hex.hexLower r.sha256sum := by
      rw [show P.state.db.files.map (fun r => Hex.hexLower r.sha256sum) = [hash] from
        congrArg Prod.snd ho]
      exact List.mem_singleton_self _
    obtain ⟨r,hr,he⟩ := List.mem_map.mp hm
    exact .inl ⟨r,hr,he⟩
  exact ⟨P,hrun,hrow,careful_uploads_complete lib (fun _ => content) _ _ _ (fresh Unit) hrun hash hrow⟩

/-- The same for all runs in which only connections break is false. -/
theorem overlapping_uploads_incomplete :
    ¬ ∀ (ι : Type) [DecidableEq ι] (lib : Library) (content : Text → Content)
      (ctx : ι → ClientContext) (arg : ι → Text) (w : World ι), FreshUploads content w →
      ∀ P : Pool Op Op.Res ι (World ι) Unit,
        Pool.Run (server ι lib) ConnectionFaults ⟨fun i => handlePuts (ctx i) (arg i),w⟩ P →
          StoreComplete content P.state := by
  intro hall
  have h : (Pool.replay (server Bool lib) (fun _ o _ c => decide (c = .fault → o.network = true))
      overlap (start Bool fun b => if b then 2 else 1)).map observe = some (some [],[hash]) := by
    decide +kernel
  obtain ⟨P,hP,ho⟩ := Option.map_eq_some_iff.mp h
  have hrun : Pool.Run (server Bool lib) ConnectionFaults
      (start Bool fun b => if b then 2 else 1) P :=
    Pool.run_mono (fun _ o _ c hc => (of_decide_eq_true hc : c = .fault → o.network = true))
      (Pool.replay_run overlap hP)
  have hm : hash ∈ P.state.db.files.map fun r => Hex.hexLower r.sha256sum := by
    rw [show P.state.db.files.map (fun r => Hex.hexLower r.sha256sum) = [hash] from
      congrArg Prod.snd ho]
    exact List.mem_singleton_self _
  obtain ⟨r,hr,he⟩ := List.mem_map.mp hm
  have hc := hall Bool lib (fun _ => content) _ _ _ (fresh Bool) P hrun hash (.inl ⟨r,hr,he⟩)
  have hz := congrArg Prod.fst ho
  simp only [observe] at hz
  rw [hz] at hc
  exact absurd hc (by decide)

end WindCloud
