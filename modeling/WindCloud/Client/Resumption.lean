import WindCloud.Client.Completion

/-!
# Downloads resumed under other plans

The task directory is found again by the hash alone, while the ranges of the
parts depend on the number of sources. Part files stay beginnings of their
parts as long as no part file with bytes is taken over for a part that starts
elsewhere or is shorter; nothing in the code checks this.
-/

set_option autoImplicit false

namespace WindCloud
open CString Effect Function

namespace Client

/-- Where a run is: before it has a task, after its preparation and
refreshing, or with its part transfers under way. -/
inductive Phase where
  | idle
  | synced (m : MultipartTaskMeta)
  | moving (m : MultipartTaskMeta)

def Phase.task : Phase → Option MultipartTaskMeta
  | .idle => none
  | .synced m | .moving m => some m

/-- `origin i` is the number of sources of the last prepared plan that had a part `i`. -/
structure Situation where
  origin : PartIndex → ℕ
  state : State
  phase : Phase

/-- The bytes a part is responsible for. -/
def span (c : Content) (p : MultipartPartInfo) : Content :=
  (c.drop p.rangeStart.toNat).take (partTotalSize p).toNat

/-- The step does not concern the task directory. -/
structure Elsewhere (D : Download) (s s' : State) : Prop where
  files : ∀ p, D.Below p → s'.files.lookup p = s.files.lookup p
  dirs : ∀ p ∈ s'.dirs, D.Below p → p ∈ s.dirs

/-- Runs for one content, one after the other, each with its own plan; `careful`
restricts the preparations. A preparation or a transfer may fail in any operation, and a
run may end at any point. -/
inductive Downloads (D : Download)
    (careful : (PartIndex → ℕ) → State → MultiGetsPlan → Prop) : Situation → Prop
  | start {s : State} (h : Fresh D s) : Downloads D careful ⟨fun _ => 0,s,.idle⟩
  | prepare {σ : Situation} {plan : MultiGetsPlan} {cs : List Choice} {m : MultipartTaskMeta}
      {s' : State} (run : Downloads D careful σ) (hplan : PlanFor D plan)
      (hcare : careful σ.origin σ.state plan)
      (h : client.Exec AnyOutcome () (prepareDownload D.dir plan) σ.state cs (some m) s') :
      Downloads D careful
        ⟨fun i => if i.val < plan.sources.length then plan.sources.length else σ.origin i,s',
          .synced m⟩
  | refused {σ : Situation} {plan : MultiGetsPlan} {s' : State} (run : Downloads D careful σ)
      (hplan : PlanFor D plan)
      (h : client.Stops AnyOutcome () (prepareDownload D.dir plan) σ.state s') :
      Downloads D careful ⟨σ.origin,s',.idle⟩
  | transfer {σ : Situation} {m : MultipartTaskMeta} {i : PartIndex} {ticket : Text} {s' : State}
      (run : Downloads D careful σ) (hm : σ.phase.task = some m) (hi : i ∈ m.indices)
      (hopen : isPartFinished (m.parts i) = false)
      (honest : Honest (σ.state.env.source (m.parts i).sourceIp (m.parts i).sourcePort ticket)
        (span D.content (m.parts i)))
      (h : client.Stops AnyOutcome () (getsPartThreadFunc (partTask m (m.parts i) ticket))
        σ.state s') :
      Downloads D careful ⟨σ.origin,s',.moving m⟩
  | finish {σ : Situation} {m : MultipartTaskMeta} {arg path : Text} {s' : State}
      (run : Downloads D careful σ) (hm : σ.phase.task = some m)
      (hpath : buildClientLocalFilePath maxPathLen D.dir arg = some path)
      (h : client.Stops AnyOutcome () (finishDownload path m) σ.state s') :
      Downloads D careful ⟨σ.origin,s',.idle⟩
  | elsewhere {σ : Situation} {s' : State} (run : Downloads D careful σ)
      (h : Elsewhere D σ.state s') : Downloads D careful ⟨σ.origin,s',σ.phase⟩

/-- Every part file of the current task is a beginning of its range, and a
refreshed task counts no more bytes than its file has. -/
structure Correct (D : Download) (σ : Situation) : Prop where
  parts : ∀ m, σ.phase.task = some m → ∀ i ∈ m.indices, ∀ f,
    σ.state.files.lookup (m.parts i).partFilePath = some f → f <+: span D.content (m.parts i)
  finished : ∀ m, σ.phase = .synced m → ∀ i ∈ m.indices, 0 ≤ (m.parts i).finishedBytes ∧
    (m.parts i).finishedBytes ≤ (σ.state.content (m.parts i).partFilePath).length

/-- Every part file that the plan takes over is empty, or was begun at the same
offset and is no longer than the part. -/
def Reusable (D : Download) (origin : PartIndex → ℕ) (s : State) (plan : MultiGetsPlan) : Prop :=
  ∀ (i : PartIndex) (f : Content), i.val < plan.sources.length →
    s.files.lookup (D.partPath i) = some f → f ≠ [] →
      partStart D.content.length (origin i) i.val =
        partStart D.content.length plan.sources.length i.val ∧
      f.length ≤ partSize D.content.length plan.sources.length i.val

section

variable {D : Download} {σ : Situation} {s s' : State} {origin : PartIndex → ℕ}
  {plan : MultiGetsPlan} {m : MultipartTaskMeta} {n : ℕ} {env : Environment}

theorem Cut.span_slice (h : Cut D n m) {i : PartIndex} (hi : i.val < n) :
    span D.content (m.parts i) = slice D.content n i.val := by
  have hr := h.range i hi
  have ht := h.total hi
  simp only [MultipartPartInfo.range,Prod.mk.injEq] at hr
  rw [span,slice,hr.1,ht,Int.toNat_natCast,Int.toNat_natCast]

theorem prefix_reused {c f : Content} {n k i : ℕ} (hf : f <+: slice c k i)
    (hs : partStart c.length k i = partStart c.length n i) (hl : f.length ≤ partSize c.length n i) :
    f <+: slice c n i := by
  have hc : f <+: c.drop (partStart c.length n i) := by
    rw [← hs]
    exact hf.trans (List.take_prefix _ _)
  rw [List.prefix_iff_eq_take.mp hc]
  exact List.take_prefix_take_left hl

/-- The files of the task directory may be taken over by the plan. -/
theorem kept_reused (h : Kept D origin (fun _ => True) env s) (hr : Reusable D origin s plan) :
    Kept D (fun i => if i.val < plan.sources.length then plan.sources.length else origin i)
      (fun _ => True) env s where
  env := h.env
  parts := by
    intro i f hl
    refine ⟨trivial,?_⟩
    have hf := (h.parts i f hl).2
    split
    · rename_i hi
      by_cases hne : f = []
      · rw [hne]
        exact List.nil_prefix
      · obtain ⟨hs,hlen⟩ := hr i f hi hl hne
        exact prefix_reused hf hs hlen
    · exact hf
  saved := h.saved
  files := h.files
  dirs := h.dirs

theorem kept_elsewhere (h : Kept D origin (fun _ => True) env s) (he : Elsewhere D s s') :
    Kept D origin (fun _ => True) s'.env s' where
  env := rfl
  parts := fun i f hl => h.parts i f ((he.files _ (Download.below_part i)).symm.trans hl)
  saved := fun t ht => h.saved t ((he.files _ Download.below_meta).symm.trans ht)
  files := fun p f hl hb => h.files p f ((he.files p hb).symm.trans hl) hb
  dirs := fun p hp hb => h.dirs p (he.dirs p hp hb) hb

/-- What holds of every situation: the task directory is in order, and the task
in memory has the parts that its files are begun as. -/
structure Sound (D : Download) (σ : Situation) : Prop where
  kept : Kept D σ.origin (fun _ => True) σ.state.env σ.state
  cut : ∀ m, σ.phase.task = some m → ∃ n, Cut D n m ∧ ∀ i : PartIndex, i.val < n → σ.origin i = n
  counted : ∀ m, σ.phase = .synced m → ∀ i ∈ m.indices, 0 ≤ (m.parts i).finishedBytes ∧
    (m.parts i).finishedBytes ≤ (σ.state.content (m.parts i).partFilePath).length

theorem Sound.correct (h : Sound D σ) : Correct D σ where
  parts := by
    intro m hm i hi f hl
    obtain ⟨n,hcut,horigin⟩ := h.cut m hm
    have hin := hcut.mem.mp hi
    rw [hcut.path i hin] at hl
    have hf := (h.kept.parts i f hl).2
    rw [horigin i hin] at hf
    rw [hcut.span_slice hin]
    exact hf
  finished := h.counted

theorem counted_content {ok : Op → State → Choice → Prop} {p : MultipartPartInfo}
    (hs : 0 ≤ partTotalSize p) (h : Counted ok s p) :
    0 ≤ p.finishedBytes ∧ p.finishedBytes ≤ (s.content p.partFilePath).length := by
  unfold State.content
  rcases h with h | ⟨h,_⟩
  · rw [h]
    cases s.files.lookup p.partFilePath with
    | none => exact ⟨Int.le_refl _,Int.natCast_nonneg _⟩
    | some f =>
      simp only [Option.map_some,finishedOf,Option.getD_some]
      split <;> omega
  · rw [h]
    exact ⟨Int.le_refl _,Int.natCast_nonneg _⟩

theorem sound_prepare (hD : D.Valid) (h : Sound D σ) (hplan : PlanFor D plan)
    (hr : Reusable D σ.origin σ.state plan) {cs : List Choice}
    (hx : client.Exec AnyOutcome () (prepareDownload D.dir plan) σ.state cs (some m) s') :
    Sound D ⟨fun i => if i.val < plan.sources.length then plan.sources.length else σ.origin i,s',
      .synced m⟩ := by
  obtain ⟨hkept,hpost,_⟩ := Machine.exec_always hx
    (holds_prepareDownload kept_suits hD.regular hplan (kept_reused h.kept hr)
      (kept_readable hD.regular h.kept))
  obtain ⟨hplanned,hsync,_⟩ := hpost m rfl
  refine ⟨by rw [hkept.env]; exact hkept,?_,?_⟩
  · rintro _ ⟨rfl⟩
    exact ⟨_,hplanned.cut,fun i hi => if_pos hi⟩
  · rintro _ ⟨rfl⟩ i hi
    have hin := hplanned.cut.mem.mp hi
    refine counted_content ?_ (hsync.counted i hin)
    rw [hplanned.cut.total hin]
    exact Int.natCast_nonneg _

theorem sound_refused (hD : D.Valid) (h : Sound D σ) (hplan : PlanFor D plan)
    (hx : client.Stops AnyOutcome () (prepareDownload D.dir plan) σ.state s') :
    Sound D ⟨σ.origin,s',.idle⟩ := by
  have hkept := Machine.stops_always hx (holds_prepareDownload kept_suits hD.regular hplan h.kept
    (kept_readable hD.regular h.kept))
  exact ⟨by rw [hkept.env]; exact hkept,by rintro _ ⟨⟩,by rintro _ ⟨⟩⟩

theorem sound_transfer (h : Sound D σ) (hm : σ.phase.task = some m) {i : PartIndex}
    (hi : i ∈ m.indices) {ticket : Text}
    (honest : Honest (σ.state.env.source (m.parts i).sourceIp (m.parts i).sourcePort ticket)
      (span D.content (m.parts i)))
    (hx : client.Stops AnyOutcome () (getsPartThreadFunc (partTask m (m.parts i) ticket))
      σ.state s') : Sound D ⟨σ.origin,s',.moving m⟩ := by
  obtain ⟨n,hcut,horigin⟩ := h.cut m hm
  have hin := hcut.mem.mp hi
  have hpath : (partTask m (m.parts i) ticket).partFilePath = D.partPath i := hcut.path i hin
  have hcarry : Carries (Kept D σ.origin (fun _ => True) σ.state.env)
      (partTask m (m.parts i) ticket).partFilePath (slice D.content (σ.origin i) i.val) := by
    rw [hpath]
    exact carries_part trivial
  have hhonest : Honest (σ.state.env.source (m.parts i).sourceIp (m.parts i).sourcePort ticket)
      (slice D.content (σ.origin i) i.val) := by
    rw [horigin i hin,← hcut.span_slice hin]
    exact honest
  have hfile : ∀ f, σ.state.files.lookup (partTask m (m.parts i) ticket).partFilePath = some f →
      f <+: slice D.content (σ.origin i) i.val := by
    intro f hl
    rw [hpath] at hl
    exact (h.kept.parts i f hl).2
  have hkept := Machine.stops_always hx (holds_getsPartThreadFunc hcarry h.kept hhonest hfile)
  refine ⟨by rw [hkept.env]; exact hkept,?_,by rintro _ ⟨⟩⟩
  rintro _ ⟨rfl⟩
  exact ⟨n,hcut,horigin⟩

theorem sound_finish (h : Sound D σ) (hm : σ.phase.task = some m) {arg path : Text}
    (hpath : buildClientLocalFilePath maxPathLen D.dir arg = some path)
    (hx : client.Stops AnyOutcome () (finishDownload path m) σ.state s') :
    Sound D ⟨σ.origin,s',.idle⟩ := by
  obtain ⟨n,hcut,horigin⟩ := h.cut m hm
  have hkept := Machine.stops_always hx (holds_finishDownload (local_outside hpath) hcut horigin h.kept)
  exact ⟨by rw [hkept.env]; exact hkept,by rintro _ ⟨⟩,by rintro _ ⟨⟩⟩

end

end Client

open Client

/-- In every run in which only reusable part files are taken over, each part
file of the current task holds a beginning of its range. -/
theorem downloads_keep_parts (D : Download) (hD : D.Valid) (σ : Situation)
    (h : Downloads D (Reusable D) σ) : Correct D σ := by
  apply Sound.correct
  induction h with
  | start hf => exact ⟨kept_fresh hf,by rintro _ ⟨⟩,by rintro _ ⟨⟩⟩
  | prepare _ hplan hcare hx ih => exact sound_prepare hD ih hplan hcare hx
  | refused _ hplan hx ih => exact sound_refused hD ih hplan hx
  | transfer _ hm hi _ honest hx ih => exact sound_transfer ih hm hi honest hx
  | finish _ hm hpath hx ih => exact sound_finish ih hm hpath hx
  | elsewhere _ he ih =>
    refine ⟨kept_elsewhere ih.kept he,ih.cut,fun m hm i hi => ?_⟩
    obtain ⟨n,hcut,_⟩ := ih.cut m (by rw [hm]; rfl)
    have hc := ih.counted m hm i hi
    rw [hcut.path i (hcut.mem.mp hi)] at hc ⊢
    rw [State.content,he.files _ (Download.below_part i)]
    exact hc

namespace TwoPlans

def content : Content := "abcd".toList

def hash : Text := Sources.fourHash

def download : Download := Sources.download content hash

def plan (n : ℕ) : MultiGetsPlan := Sources.plan n content hash

def second : PartIndex := ⟨1,by decide⟩

def source : Peer :=
  ⟨initFilePacket .gets "a".toList 2 0 none,fun q => "cd".toList.drop q.offset.toNat⟩

def env : Environment := ⟨fun _ => plan 2,fun _ => ⟨1,[],[]⟩,fun _ _ _ => source,fun _ => hash⟩

def begin : State :=
  { env := env, files := ∅, dirs := [], asked := .command .gets [], address := ([],[])
    peer := source, stream := [], output := none, input := none, printed := [] }

def prepared (n steps : ℕ) (s : State) : Option (MultipartTaskMeta × State) :=
  (client.run () (prepareDownload download.dir (plan n)) s (List.replicate steps .ok)).bind
    fun r => r.1.map fun m => (m,r.2)

def fetched (m : MultipartTaskMeta) (s : State) : Option (ℤ × State) :=
  client.run () (getsPartThreadFunc (partTask m (m.parts second) [])) { s with env := env }
    (List.replicate 13 .ok)

def ready (m : MultipartTaskMeta) : Bool :=
  decide (second ∈ m.indices ∧ isPartFinished (m.parts second) = false ∧
    span content (m.parts second) = "cd".toList)

theorem valid : download.Valid := ⟨by decide +kernel,by decide⟩

theorem plan_for (n : ℕ) (h : 0 < n ∧ n ≤ 8) : PlanFor download (plan n) := Sources.plan_for h

/-- No part file is longer than its half. -/
def halves (s : State) : Bool :=
  decide (∀ i : PartIndex, i.val < 2 → (s.files.lookup (download.partPath i)).all fun f =>
    decide (f.length ≤ partSize content.length 2 i.val))

theorem halves_reusable {origin : PartIndex → ℕ} {s : State} (horigin : ∀ i, i.val < 2 → origin i = 2)
    (h : halves s = true) : Reusable download origin s (plan 2) := by
  intro i f hi hl _
  have hsources : (plan 2).sources.length = 2 := rfl
  rw [hsources] at hi ⊢
  have hshort := of_decide_eq_true h i hi
  rw [hl] at hshort
  exact ⟨by rw [horigin i hi],of_decide_eq_true hshort⟩

theorem prepared_exec {n steps : ℕ} {s s' : State} {m : MultipartTaskMeta}
    (h : prepared n steps s = some (m,s')) :
    client.Exec AnyOutcome () (prepareDownload download.dir (plan n)) s
      (List.replicate steps .ok) (some m) s' := by
  obtain ⟨⟨r,s₁⟩,hrun,hr⟩ := Option.bind_eq_some_iff.mp h
  obtain ⟨m₁,rfl,hm⟩ := Option.map_eq_some_iff.mp hr
  obtain ⟨rfl,rfl⟩ := Prod.mk.inj hm
  exact Machine.run_exec hrun

theorem fresh : Fresh download begin := ⟨fun _ _ => rfl,by simp [begin]⟩

theorem first_plan (careful : (PartIndex → ℕ) → State → MultiGetsPlan → Prop)
    (hcare : careful (fun _ => 0) begin (plan 2)) {m : MultipartTaskMeta} {s s' : State} {r : ℤ}
    (hp : prepared 2 15 begin = some (m,s)) (hf : fetched m s = some (r,s'))
    (hready : ready m = true) :
    Downloads download careful ⟨fun i => if i.val < 2 then 2 else 0,s',.moving m⟩ := by
  obtain ⟨hi,hopen,hspan⟩ := of_decide_eq_true hready
  have hprep : Downloads download careful ⟨fun i => if i.val < 2 then 2 else 0,s,.synced m⟩ :=
    .prepare (.start fresh) (plan_for 2 (by decide)) hcare (prepared_exec hp)
  have hsame : Elsewhere download s { s with env := env } := ⟨fun _ _ => rfl,fun _ hd _ => hd⟩
  have hrun : client.Exec AnyOutcome () (getsPartThreadFunc (partTask m (m.parts second) []))
      { s with env := env } (List.replicate 13 .ok) r s' := Machine.run_exec hf
  refine .transfer (.elsewhere hprep hsame) rfl hi hopen ?_ (Machine.exec_stops hrun)
  show Honest source (span content (m.parts second))
  rw [hspan]
  exact ⟨rfl,fun _ _ => rfl⟩

end TwoPlans

open TwoPlans

/-- The same plan is prepared again, and takes over the part as finished. -/
theorem resumed_download_kept :
    ∃ σ m, Downloads download (Reusable download) σ ∧ Correct download σ ∧
      σ.phase = .synced m ∧ isPartFinished (m.parts second) = true ∧
      σ.state.files.lookup (m.parts second).partFilePath = some "cd".toList := by
  have h : ((prepared 2 15 begin).bind fun p => (fetched p.1 p.2).bind fun q =>
      (prepared 2 13 q.2).map fun t =>
        (ready p.1,halves q.2,isPartFinished (t.1.parts second),
          t.2.files.lookup (t.1.parts second).partFilePath)) =
      some (true,true,true,some "cd".toList) := by decide +kernel
  obtain ⟨⟨m,s⟩,hp,h⟩ := Option.bind_eq_some_iff.mp h
  obtain ⟨⟨r,s'⟩,hf,h⟩ := Option.bind_eq_some_iff.mp h
  obtain ⟨⟨m',s''⟩,hp',h⟩ := Option.map_eq_some_iff.mp h
  simp only [Prod.mk.injEq] at h
  obtain ⟨hready,hhalves,hfinished,hfile⟩ := h
  have hrun := first_plan (Reusable download) (fun i f _ hl => by cases hl) hp hf hready
  have hreusable : Reusable download (fun i => if i.val < 2 then 2 else 0) s' (plan 2) :=
    halves_reusable (fun i hi => if_pos hi) hhalves
  have hnext := Downloads.prepare hrun (plan_for 2 (by decide)) hreusable (prepared_exec hp')
  exact ⟨_,m',hnext,downloads_keep_parts download valid _ hnext,rfl,hfinished,hfile⟩

/-- The plan with four sources takes over the second half as its second quarter. -/
theorem changed_plan_stale_part :
    ¬ ∀ D : Download, D.Valid → ∀ σ, Downloads D (fun _ _ _ => True) σ → Correct D σ := by
  intro hall
  have h : ((prepared 2 15 begin).bind fun p => (fetched p.1 p.2).bind fun q =>
      (prepared 4 18 q.2).map fun t =>
        (ready p.1,decide (second ∈ t.1.indices),span content (t.1.parts second),
          t.2.files.lookup (t.1.parts second).partFilePath)) =
      some (true,true,"b".toList,some "cd".toList) := by decide +kernel
  obtain ⟨⟨m,s⟩,hp,h⟩ := Option.bind_eq_some_iff.mp h
  obtain ⟨⟨r,s'⟩,hf,h⟩ := Option.bind_eq_some_iff.mp h
  obtain ⟨⟨m',s''⟩,hp',h⟩ := Option.map_eq_some_iff.mp h
  simp only [Prod.mk.injEq,decide_eq_true_eq] at h
  obtain ⟨hready,hi',hspan',hfile⟩ := h
  have hrun := first_plan (fun _ _ _ => True) trivial hp hf hready
  have hnext := Downloads.prepare hrun (plan_for 4 (by decide)) trivial (prepared_exec hp')
  have hprefix := (hall download valid _ hnext).parts m' rfl second hi' _ hfile
  have hlen := hprefix.length_le
  rw [show span download.content (m'.parts second) = "b".toList from hspan'] at hlen
  exact absurd hlen (by decide)

end WindCloud
