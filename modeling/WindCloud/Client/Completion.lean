import WindCloud.Client.Finish

/-!
# Completing a download

Whatever earlier attempts have left in the task directory, an attempt in which
nothing fails transfers what is missing of every part that has bytes, and
merges the parts. It completes exactly when no part is empty: a part without
bytes counts as finished and is not asked for, so that nothing ever makes the
file which the merge wants to read.
-/

set_option autoImplicit false

namespace WindCloud
open CString Effect Function

namespace Client

/-- The control server offers the plan for the command, and tickets with which
the sources send their parts. -/
structure Serves (D : Download) (arg : Text) (plan : MultiGetsPlan) (env : Environment) :
    Prop where
  offer : env.plan (initCommandPacket .gets arg) = plan
  success : plan.success = 1
  ticket : ∀ (i : PartIndex) (h : i.val < plan.sources.length),
    0 < partSize D.content.length plan.sources.length i.val →
      ∀ request, buildGetsRangeTicketRequest cmdDataLen plan.fileName
          (partStart D.content.length plan.sources.length i.val)
          (partStart D.content.length plan.sources.length i.val+
            partSize D.content.length plan.sources.length i.val-1)
          plan.sources[i.val].ip plan.sources[i.val].port = some request →
        (env.ticket (initCommandPacket .getsRange request)).success = 1 ∧
          Honest (env.source plan.sources[i.val].ip plan.sources[i.val].port
            ((env.ticket (initCommandPacket .getsRange request)).ticket.take
              (transferTicketLen-1)))
            (slice D.content plan.sources.length i.val)
  sha256 : env.sha256 D.content = D.hash

/-- A part has a file only if it has bytes. -/
def Present (D : Download) (n : ℕ) (i : PartIndex) : Prop :=
  i.val < n ∧ 0 < partSize D.content.length n i.val

abbrev KeptFor (D : Download) (n : ℕ) (env : Environment) (s : State) : Prop :=
  Kept D (fun _ => n) (Present D n) env s

section Request

variable {D : Download} {ok : Op → State → Choice → Prop} {I : State → Prop} {s : State}
  {m : MultipartTaskMeta} {plan : MultiGetsPlan} {env : Environment} {α : Type}
  {Q : α → State → Prop} {arg : Text}

/-- The property says what the servers are, and else depends on files and directories. -/
structure Still (env : Environment) (I : State → Prop) : Prop where
  env : ∀ {s : State}, I s → s.env = env
  same : ∀ {s s' : State}, I s → s'.env = s.env → s'.dirs = s.dirs → s'.files = s.files → I s'

theorem holds_say {msg : Text} {f : Unit → Client α} (hI : Still env I) (h : I s)
    (hf : ∀ s', I s' → Holds ok I (f ()) Q s') :
    Holds ok I (perform (.print msg) >>= f) Q s := by
  refine holds_perform h ?_ ?_ ?_
  · intro r s' hx
    obtain ⟨_,rfl⟩ := Prod.mk.inj (Option.some.inj hx)
    exact hf _ (hI.same h rfl rfl rfl)
  · intro _ r s' hx
    cases hx
  · intro n r s' hx
    cases hx

theorem holds_requestMultiGetsPlan (hI : Still env I) (hs : Serves D arg plan env) (h : I s) :
    Holds ok I (requestMultiGetsPlan arg)
      (fun r _ => (∀ p ∈ r, p = plan) ∧ (r = none → ¬ NoFault ok)) s := by
  unfold requestMultiGetsPlan sendCommand
  refine holds_perform h ?_ ?_ ?_
  · intro r s₁ hx
    obtain ⟨rfl,rfl⟩ := Prod.mk.inj (Option.some.inj hx)
    rw [if_pos rfl]
    have h₁ : I { s with asked := initCommandPacket .gets arg } := hI.same h rfl rfl rfl
    refine holds_perform h₁ ?_ ?_ ?_
    · intro r s₂ hx
      obtain ⟨rfl,rfl⟩ := Prod.mk.inj (Option.some.inj hx)
      refine holds_say hI h₁ fun s₃ h₃ => ?_
      rw [hI.env h₁,hs.offer,if_pos hs.success]
      exact ⟨h₃,fun p hp => (Option.some.inj hp).symm,by simp⟩
    · intro hf r s₂ hx
      obtain ⟨rfl,rfl⟩ := Prod.mk.inj (Option.some.inj hx)
      exact holds_say hI h₁ fun s₃ h₃ => ⟨h₃,by simp,fun _ => hf⟩
    · intro n r s₂ hx
      cases hx
  · intro hf r s₁ hx
    obtain ⟨rfl,rfl⟩ := Prod.mk.inj (Option.some.inj hx)
    exact holds_say hI h fun s₂ h₂ => ⟨h₂,by simp,fun _ => hf⟩
  · intro n r s₁ hx
    cases hx

theorem decimal_short {n : ℤ} (hn : 0 ≤ n) (h : n < 100000000000000000000) : (decimal n).length ≤ 20 := by
  have hd : (Nat.toDigits 10 n.natAbs).length ≤ 20 :=
    (Nat.length_toDigits_le_iff (by decide) (by decide)).mpr (by omega)
  rw [decimal,if_neg (by omega)]
  exact hd

theorem range_request (hD : D.Valid) (hplan : PlanFor D plan)
    (hname : plan.fileName.length ≤ maxVfsNameLen) {i : PartIndex}
    (hi : i.val < plan.sources.length)
    (hpos : 0 < partSize D.content.length plan.sources.length i.val) :
    ∃ request, buildGetsRangeTicketRequest cmdDataLen plan.fileName
      (partStart D.content.length plan.sources.length i.val)
      (partStart D.content.length plan.sources.length i.val+
        partSize D.content.length plan.sources.length i.val-1)
      plan.sources[i.val].ip plan.sources[i.val].port = some request := by
  have hfit := part_fits D.content.length hi
  have hsize := hD.size
  have hip := (hplan.ip _ (List.getElem_mem hi)).2
  have hport := (hplan.port _ (List.getElem_mem hi)).2
  have hstart := decimal_short (n := partStart D.content.length plan.sources.length i.val)
    (by omega) (by omega)
  have hend := decimal_short (n := partStart D.content.length plan.sources.length i.val+
    partSize D.content.length plan.sources.length i.val-1) (by omega) (by omega)
  refine ⟨_,bounded_eq_some.mpr ⟨rfl,?_⟩⟩
  simp only [maxVfsNameLen] at hname
  simp only [cmdDataLen,List.length_append,List.length_cons]
  omega

theorem holds_requestGetsRangeTicket (hD : D.Valid) (hplan : PlanFor D plan)
    (hname : plan.fileName.length ≤ maxVfsNameLen) (hI : Still env I) (hs : Serves D arg plan env)
    (hm : Planned D plan m) {i : PartIndex} (hi : i.val < plan.sources.length)
    (hpos : 0 < partSize D.content.length plan.sources.length i.val) (h : I s) :
    Holds ok I (requestGetsRangeTicket m.fileName (m.parts i))
      (fun r _ =>
        (∀ ticket ∈ r, Honest (env.source (m.parts i).sourceIp (m.parts i).sourcePort ticket)
          (slice D.content plan.sources.length i.val)) ∧ (r = none → ¬ NoFault ok)) s := by
  obtain rfl := hI.env h
  obtain ⟨request,hr⟩ := range_request hD hplan hname hi hpos
  obtain ⟨hsuccess,honest⟩ := hs.ticket i hi hpos request hr
  obtain ⟨hip,hport⟩ := hm.source i hi
  have hrange := hm.cut.range i hi
  simp only [MultipartPartInfo.range,Prod.mk.injEq] at hrange
  unfold requestGetsRangeTicket sendCommand
  rw [hm.fileName,hrange.1,hrange.2,hip,hport,hr]
  refine holds_perform h ?_ ?_ ?_
  · intro r s₁ hx
    obtain ⟨rfl,rfl⟩ := Prod.mk.inj (Option.some.inj hx)
    rw [if_pos rfl]
    have h₁ : I { s with asked := initCommandPacket .getsRange request } := hI.same h rfl rfl rfl
    refine holds_perform h₁ ?_ ?_ ?_
    · intro r s₂ hx
      obtain ⟨rfl,rfl⟩ := Prod.mk.inj (Option.some.inj hx)
      dsimp only
      rw [if_pos hsuccess]
      exact ⟨h₁,fun ticket ht => Option.some.inj ht ▸ honest,by simp⟩
    · intro hf r s₂ hx
      obtain ⟨rfl,rfl⟩ := Prod.mk.inj (Option.some.inj hx)
      exact holds_say hI h₁ fun s₃ h₃ => ⟨h₃,by simp,fun _ => hf⟩
    · intro n r s₂ hx
      cases hx
  · intro hf r s₁ hx
    obtain ⟨rfl,rfl⟩ := Prod.mk.inj (Option.some.inj hx)
    exact holds_say hI h fun s₂ h₂ => ⟨h₂,by simp,fun _ => hf⟩
  · intro n r s₁ hx
    cases hx

end Request

section Transfers

variable {D : Download} {ok : Op → State → Choice → Prop} {I : State → Prop} {s : State}
  {m : MultipartTaskMeta} {plan : MultiGetsPlan} {env : Environment} {arg path : Text} {n : ℕ}
  {task : GetsPartTask} {i : PartIndex}

/-- The task transfers part `i`, which has bytes, from a source that sends them. -/
structure Assigned (D : Download) (n : ℕ) (env : Environment) (task : GetsPartTask)
    (i : PartIndex) : Prop where
  present : Present D n i
  path : task.partFilePath = D.partPath i
  honest : Honest (env.source task.serverIp task.serverPort task.ticket) (slice D.content n i.val)

theorem present_of_open (hm : Divided D n m) (hi : i.val < n)
    (hopen : isPartFinished (m.parts i) = false) : Present D n i := by
  have hlt := of_decide_eq_false hopen
  have hfin := hm.finished i hi
  have ht := hm.total hi
  exact ⟨hi,by omega⟩

theorem holds_requestTickets (hD : D.Valid) (hplan : PlanFor D plan)
    (hname : plan.fileName.length ≤ maxVfsNameLen) (hI : Still env I) (hs : Serves D arg plan env)
    (hm : Planned D plan m) (hdiv : Divided D plan.sources.length m) {is : List PartIndex}
    (his : ∀ i ∈ is, i.val < plan.sources.length) (h : I s) :
    Holds ok I (requestTickets m is)
      (fun r _ => (∀ tasks ∈ r,
          (∀ task ∈ tasks, ∃ i, Assigned D plan.sources.length env task i) ∧
          ∀ i ∈ is, isPartFinished (m.parts i) = false →
            ∃ task ∈ tasks, Assigned D plan.sources.length env task i) ∧
        (r = none → ¬ NoFault ok)) s := by
  induction is generalizing s with
  | nil => exact ⟨h,fun tasks ht => by obtain rfl := Option.some.inj ht; simp,by simp⟩
  | cons i is ih =>
    have hrest : ∀ j ∈ is, j.val < plan.sources.length := fun j hj => his j (by simp [hj])
    have hi := his i (by simp)
    unfold requestTickets
    split
    · rename_i hfin
      refine Machine.always_mono s ?_ (ih hrest h)
      rintro r _ - ⟨hsome,hnone⟩
      refine ⟨fun tasks ht => ⟨(hsome tasks ht).1,fun j hj hopen => ?_⟩,hnone⟩
      rcases List.mem_cons.mp hj with rfl | hj
      · rw [hfin] at hopen
        cases hopen
      · exact (hsome tasks ht).2 j hj hopen
    · rename_i hopen
      have hpresent := present_of_open hdiv hi (by simpa using hopen)
      refine holds_bind (holds_requestGetsRangeTicket hD hplan hname hI hs hm hi hpresent.2 h) ?_
      rintro r s₁ h₁ ⟨honest,hnone⟩
      cases r with
      | none => exact ⟨h₁,by simp,fun _ => hnone rfl⟩
      | some ticket =>
        refine holds_bind (ih hrest h₁) ?_
        rintro r s₂ h₂ ⟨hsome,hnone⟩
        cases r with
        | none => exact ⟨h₂,by simp,fun _ => hnone rfl⟩
        | some tasks =>
          obtain ⟨htasks,hopened⟩ := hsome tasks rfl
          have hassigned : Assigned D plan.sources.length env (partTask m (m.parts i) ticket) i :=
            ⟨hpresent,hm.cut.path i hi,honest ticket rfl⟩
          refine ⟨h₂,fun all hall => ?_,by simp⟩
          obtain rfl := Option.some.inj hall
          refine ⟨fun task ht => ?_,fun j hj hj' => ?_⟩
          · rcases List.mem_cons.mp ht with rfl | ht
            · exact ⟨i,hassigned⟩
            · exact htasks task ht
          · rcases List.mem_cons.mp hj with rfl | hj
            · exact ⟨_,List.mem_cons_self,hassigned⟩
            · obtain ⟨task,ht,ha⟩ := hopened j hj hj'
              exact ⟨task,List.mem_cons_of_mem _ ht,ha⟩

theorem holds_partThread (ha : Assigned D n env task i) (h : KeptFor D n env s) :
    Holds ok (KeptFor D n env) (getsPartThreadFunc task)
      (fun _ s' => Only (D.partPath i) s s' ∧
        (NoFault ok → s'.files.lookup (D.partPath i) = some (slice D.content n i.val))) s := by
  have hcarry : Carries (KeptFor D n env) (D.partPath i) (slice D.content n i.val) :=
    carries_part ha.present
  have hne : slice D.content n i.val ≠ [] := by
    intro hnil
    have hlen := slice_length D.content ha.present.1
    have hpos := ha.present.2
    rw [hnil,List.length_nil] at hlen
    omega
  have honly := hcarry.only s
  rw [← ha.path] at honly
  have honest := ha.honest
  rw [← h.env] at honest
  refine Machine.always_weaken s (fun _ hs => hs.1) (Machine.always_mono s ?_
    (holds_getsPartThreadFunc honly ⟨h,fun _ _ => rfl,rfl⟩ honest
      fun f hf => (h.parts i f (by rwa [ha.path] at hf)).2))
  rintro _ s' ⟨_,hs⟩ hfetched
  rw [ha.path] at hs
  refine ⟨hs,fun hn => ?_⟩
  rw [← ha.path]
  exact hfetched hn hne

theorem holds_runPartThreads {tasks : List GetsPartTask}
    (ht : ∀ task ∈ tasks, ∃ i, Assigned D n env task i) (h : KeptFor D n env s) :
    Holds ok (KeptFor D n env) (runPartThreads tasks)
      (fun _ s' => NoFault ok → ∀ i,
        s.files.lookup (D.partPath i) = some (slice D.content n i.val) ∨
            (∃ task ∈ tasks, Assigned D n env task i) →
          s'.files.lookup (D.partPath i) = some (slice D.content n i.val)) s := by
  induction tasks generalizing s with
  | nil => exact ⟨h,fun _ i hi => hi.elim id fun ⟨_,hm,_⟩ => by cases hm⟩
  | cons task tasks ih =>
    obtain ⟨j,hj⟩ := ht task (by simp)
    have hrest : ∀ task ∈ tasks, ∃ i, Assigned D n env task i := fun t hm => ht t (by simp [hm])
    unfold runPartThreads
    refine holds_perform h ?_ ?_ ?_
    · intro r s₁ hx
      obtain ⟨rfl,rfl⟩ := Prod.mk.inj (Option.some.inj hx)
      rw [if_pos rfl]
      refine holds_bind (holds_partThread hj h) ?_
      rintro result s₂ h₂ ⟨honly,hdone⟩
      refine Machine.always_mono s₂ ?_ (ih hrest h₂)
      rintro _ s₃ - hall hn i hi
      refine hall hn i ?_
      by_cases hij : i = j
      · rw [hij]
        exact .inl (hdone hn)
      · have hsame := honly.files (D.partPath i) fun hp => hij (Download.partPath_injective hp)
        rcases hi with hi | ⟨t,hm,hi⟩
        · exact .inl (hsame.trans hi)
        · rcases List.mem_cons.mp hm with rfl | hm
          · exact absurd (Download.partPath_injective (hi.path.symm.trans hj.path)) hij
          · exact .inr ⟨t,hm,hi⟩
    · intro hf r s₁ hx
      obtain ⟨rfl,rfl⟩ := Prod.mk.inj (Option.some.inj hx)
      rw [if_neg (by decide)]
      exact Machine.always_mono s (fun _ _ _ _ hn => absurd hn hf) (ih hrest h)
    · intro n r s₁ hx
      cases hx

theorem full_of_finished (h : KeptFor D n env s) (hs : Synced D ok n s m) (hi : Present D n i)
    (hf : isPartFinished (m.parts i) = true) :
    s.files.lookup (D.partPath i) = some (slice D.content n i.val) := by
  have ht := hs.divided.total hi.1
  have hp := hs.divided.path i hi.1
  have hc := hs.counted i hi.1
  have hfin : partTotalSize (m.parts i) ≤ (m.parts i).finishedBytes := of_decide_eq_true hf
  have hpos := hi.2
  cases hl : s.files.lookup (D.partPath i) with
  | none =>
    rcases hc with hc | ⟨hc,_⟩
    · rw [hp,hl] at hc
      simp only [Option.map_none,finishedOf] at hc
      omega
    · omega
  | some f => rw [part_full hi.1 ht hp hl (h.parts i f hl).2 hc hf]

/-- The attempt ends as it should exactly if no part is empty. -/
def Ends (D : Download) (ok : Op → State → Choice → Prop) (n : ℕ) (path name : Text)
    (s : State) : Prop := NoFault ok → (Finished D path name s ↔ n ≤ D.content.length)

theorem holds_finishAll (hpath : ¬ D.Below path) (hm : Cut D n m) (henv : env.sha256 D.content = D.hash)
    (h : KeptFor D n env s)
    (hfull : NoFault ok → ∀ i, Present D n i →
      s.files.lookup (D.partPath i) = some (slice D.content n i.val)) :
    Holds ok (KeptFor D n env) (finishDownload path m)
      (fun _ s' => Ends D ok n path m.fileName s') s := by
  refine Machine.always_mono s ?_ (holds_finishDownload hpath hm (fun _ _ => rfl) h)
  rintro _ s' - ⟨hdone,hmissing⟩ hn
  constructor
  · intro hfinished
    refine (parts_nonempty hm.pos).mp fun i hi => ?_
    by_contra hzero
    have hi8 : i < maxSourceServerCount := by have := hm.bound; omega
    refine hmissing ⟨⟨i,hi8⟩,hi,?_⟩ hfinished.told
    by_contra hl
    obtain ⟨f,hf⟩ := Option.ne_none_iff_exists'.mp hl
    exact hzero (h.parts ⟨i,hi8⟩ f hf).1.2
  · intro hsize
    have hpos := (parts_nonempty hm.pos).mpr hsize
    exact hdone hn (fun i hi => hi.1) henv fun i hi => hfull hn i ⟨hi,hpos i.val hi⟩

theorem holds_startDownload (hD : D.Valid) (hplan : PlanFor D plan)
    (hname : plan.fileName.length ≤ maxVfsNameLen) (hs : Serves D arg plan env)
    (hpath : ¬ D.Below path) (hm : Planned D plan m)
    (hsync : Synced D ok plan.sources.length s m) (h : KeptFor D plan.sources.length env s) :
    Holds ok (KeptFor D plan.sources.length env) (startDownload path m)
      (fun _ s' => Ends D ok plan.sources.length path plan.fileName s') s := by
  have hstill : Still env (fun s' => KeptFor D plan.sources.length env s' ∧ s'.files = s.files) :=
    ⟨fun hi => hi.1.env,fun hi he hd hf => ⟨kept_same hi.1 he hf fun _ hp => .inl (by rwa [hd] at hp),
      hf.trans hi.2⟩⟩
  have hfailed : ∀ {s' : State} (msg : String), ¬ NoFault ok →
      KeptFor D plan.sources.length env s' →
      Holds ok (KeptFor D plan.sources.length env) (print msg)
        (fun _ s' => Ends D ok plan.sources.length path plan.fileName s') s' :=
    fun msg hf hs' => Machine.always_mono _ (fun _ _ _ _ hn => absurd hn hf)
      (holds_lastPrint msg.toList hs')
  unfold startDownload
  refine holds_bind (Machine.always_weaken s (fun _ hi => hi.1)
    (Machine.always_mono s (fun _ _ hi hq => And.intro hi.2 hq)
      (holds_requestTickets hD hplan hname hstill hs hm hsync.divided
        (fun i hi => hm.cut.mem.mp hi) ⟨h,rfl⟩))) ?_
  rintro r s₁ h₁ ⟨hfiles,hsome,hnone⟩
  cases r with
  | none => exact hfailed _ (hnone rfl) h₁
  | some tasks =>
    obtain ⟨hassigned,hopened⟩ := hsome tasks rfl
    refine holds_perform h₁ ?_ ?_ ?_
    · intro r s₂ hx
      obtain ⟨rfl,rfl⟩ := Prod.mk.inj (Option.some.inj hx)
      rw [if_pos rfl]
      refine holds_print kept_suits h₁ fun s₃ h₃ hs₃ => ?_
      unfold getsManagerThreadFunc
      refine holds_bind (holds_runPartThreads hassigned h₃) ?_
      intro _ s₄ h₄ hdone
      rw [← hm.fileName]
      refine holds_finishAll hpath hm.cut hs.sha256 h₄ fun hn i hi => hdone hn i ?_
      cases hf : isPartFinished (m.parts i) with
      | true =>
        have hl := full_of_finished h hsync hi hf
        rw [hs₃,hfiles]
        exact .inl hl
      | false => exact .inr (hopened i (hm.cut.mem.mpr hi.1) hf)
    · intro hf r s₂ hx
      obtain ⟨rfl,rfl⟩ := Prod.mk.inj (Option.some.inj hx)
      exact hfailed _ hf h₁
    · intro n r s₂ hx
      cases hx

/-- The whole command keeps the task directory in order at every moment. -/
theorem holds_handleGetsCommand (hD : D.Valid) (hroom : D.Roomy)
    (hlocal : buildClientLocalFilePath maxPathLen D.dir arg = some path) (hplan : PlanFor D plan)
    (hname : plan.fileName.length ≤ maxVfsNameLen) (hs : Serves D arg plan env)
    (h : KeptFor D plan.sources.length env s) :
    Holds ok (KeptFor D plan.sources.length env) (handleGetsCommand D.dir arg)
      (fun _ s' => Ends D ok plan.sources.length path plan.fileName s') s := by
  have hpath := local_outside hlocal
  have hstill : Still env (KeptFor D plan.sources.length env) :=
    ⟨fun hi => hi.env,fun hi he hd hf => kept_same hi he hf fun _ hp => .inl (by rwa [hd] at hp)⟩
  unfold handleGetsCommand
  rw [hlocal]
  refine holds_bind (holds_requestMultiGetsPlan hstill hs h) ?_
  rintro r s₁ h₁ ⟨hoffered,hnone⟩
  cases r with
  | none => exact ⟨h₁,fun hn => absurd hn (hnone rfl)⟩
  | some p =>
    obtain rfl := hoffered p rfl
    refine holds_bind (holds_prepareDownload kept_suits hD.regular hplan h₁
      (kept_readable hD.regular h₁)) ?_
    rintro r s₂ h₂ ⟨hprepared,hnone⟩
    cases r with
    | none => exact ⟨h₂,fun hn => absurd ⟨hn,hroom⟩ (hnone rfl)⟩
    | some m =>
      obtain ⟨hplanned,hsync,_⟩ := hprepared m rfl
      exact holds_startDownload hD hplan hname hs hpath hplanned hsync h₂

end Transfers

section Attempts

variable {D : Download} {plan : MultiGetsPlan} {env : Environment} {arg : Text} {s : State}

/-- Attempts at one download, each stopped at any point and with any failures. -/
inductive Attempts (D : Download) (arg : Text) (env : Environment) : State → Prop
  | start {s : State} (h : Fresh D s) (henv : s.env = env) : Attempts D arg env s
  | attempt {s s' : State} (run : Attempts D arg env s)
      (h : client.Stops AnyOutcome () (handleGetsCommand D.dir arg) s s') : Attempts D arg env s'

theorem attempts_kept (hD : D.Valid) (hroom : D.Roomy) {path : Text}
    (hlocal : buildClientLocalFilePath maxPathLen D.dir arg = some path) (hplan : PlanFor D plan)
    (hname : plan.fileName.length ≤ maxVfsNameLen) (hs : Serves D arg plan env)
    (h : Attempts D arg env s) : KeptFor D plan.sources.length env s := by
  induction h with
  | start hf henv =>
    subst henv
    exact kept_fresh hf
  | attempt _ hx ih =>
    exact Machine.stops_always hx (holds_handleGetsCommand hD hroom hlocal hplan hname hs ih)

theorem noFault_noFailure : NoFault NoFailure := fun _ _ _ h => h

theorem client_progress (o : Op) (s : State) :
    ∃ c r s', NoFailure o s c ∧ client.exec o () s c = some (r,s') := by
  refine ⟨.ok,?_⟩
  have h : ∃ rs, execute o s .ok = some rs := by
    cases o <;> simp only [execute] <;> first
      | exact ⟨_,rfl⟩
      | (split <;> first | exact ⟨_,rfl⟩ | (split <;> exact ⟨_,rfl⟩))
  obtain ⟨⟨r,s'⟩,hx⟩ := h
  exact ⟨r,s',by simp [NoFailure],hx⟩

end Attempts

end Client

open Client

/-- After any attempts, an attempt without failures ends, and it completes the
download if and only if no part of the plan is empty. -/
theorem resumed_download_completes (D : Download) (hD : D.Valid) (hroom : D.Roomy)
    (arg path : Text) (hlocal : buildClientLocalFilePath maxPathLen D.dir arg = some path)
    (plan : MultiGetsPlan) (hplan : PlanFor D plan)
    (hname : plan.fileName.length ≤ maxVfsNameLen) (env : Environment)
    (hs : Serves D arg plan env) (s : State) (h : Attempts D arg env s) :
    (∃ cs s', client.Exec NoFailure () (handleGetsCommand D.dir arg) s cs () s') ∧
      ∀ cs s', client.Exec NoFailure () (handleGetsCommand D.dir arg) s cs () s' →
        (Finished D path plan.fileName s' ↔ plan.sources.length ≤ D.content.length) := by
  constructor
  · obtain ⟨cs,_,s',hx⟩ := Machine.exec_total client_progress (handleGetsCommand D.dir arg) s
    exact ⟨cs,s',hx⟩
  · intro cs s' hx
    have hkept := attempts_kept hD hroom hlocal hplan hname hs h
    exact (Machine.exec_always hx (holds_handleGetsCommand hD hroom hlocal hplan hname hs hkept)).2
      noFault_noFailure

namespace Sources

def download (content : Content) (hash : Text) : Download := ⟨"files".toList,hash,content⟩

def ip (k : ℕ) : Text := "10.0.0.".toList ++ decimal k

def plan (n : ℕ) (content : Content) (hash : Text) : MultiGetsPlan :=
  ⟨1,content.length,"a".toList,hash,
    (List.range n).map fun (k : ℕ) => ⟨ip k,"9090".toList⟩,[]⟩

def source (part : Content) : Peer :=
  ⟨initFilePacket .gets "a".toList part.length 0 none,fun q => part.drop q.offset.toNat⟩

def env (n : ℕ) (content : Content) (hash : Text) : Environment :=
  ⟨fun _ => plan n content hash,fun _ => ⟨1,[],[]⟩,fun a _ _ =>
    source (slice content n ((List.range n).findIdx fun k => ip k = a)),fun _ => hash⟩

def begin (n : ℕ) (content : Content) (hash : Text) : State :=
  { env := env n content hash, files := ∅, dirs := [], asked := .command .gets []
    address := ([],[]), peer := source content, stream := [], output := none, input := none
    printed := [] }

def path : Text := "files/a".toList

section

variable {n : ℕ} {content : Content} {hash : Text}

theorem plan_for (h : 0 < n ∧ n ≤ 8) : PlanFor (download content hash) (plan n content hash) where
  fileSize := rfl
  fileHash := rfl
  pos := by simpa [plan] using h.1
  bound := by simpa [plan,maxSourceServerCount] using h.2
  name := by simp [plan,fileNameLen]
  ip := by
    have hk : ∀ k < 8, '\n' ∉ ip k ∧ (ip k).length < 64 := by decide
    intro source hs
    obtain ⟨k,hkn,rfl⟩ := List.mem_map.mp hs
    have := List.mem_range.mp hkn
    exact hk k (by omega)
  port := by
    intro source hs
    obtain ⟨k,_,rfl⟩ := List.mem_map.mp hs
    exact (by decide : '\n' ∉ "9090".toList ∧ "9090".toList.length < 16)

theorem serves (h : n ≤ 8) : Serves (download content hash) "a".toList (plan n content hash)
    (env n content hash) where
  offer := rfl
  success := rfl
  ticket := by
    have hfind : ∀ n < 9, ∀ k < n, (List.range n).findIdx (fun j => ip j = ip k) = k := by
      decide +kernel
    intro i hi _ request _
    refine ⟨rfl,?_⟩
    have hn : i.val < n := by simpa [plan] using hi
    have hip : (plan n content hash).sources[i.val].ip = ip i.val := by simp [plan]
    rw [hip]
    have hlen : (plan n content hash).sources.length = n := by simp [plan]
    have hpart : ∀ port ticket, (env n content hash).source (ip i.val) port ticket =
        source (slice content n i.val) := by
      intro port ticket
      simp only [env,hfind n (by omega) i.val hn]
    rw [hpart,hlen]
    exact ⟨rfl,fun _ _ => rfl⟩
  sha256 := rfl

theorem local_path : buildClientLocalFilePath maxPathLen (download content hash).dir "a".toList =
    some path := (by decide : buildClientLocalFilePath maxPathLen "files".toList "a".toList = some path)

theorem attempts : Attempts (download content hash) "a".toList (env n content hash)
    (begin n content hash) := .start ⟨fun _ _ => rfl,by simp [begin]⟩ rfl

end

def emptyHash : Text :=
  ["e3b0c44298fc1c149afbf4c8996fb924","27ae41e4649b934ca495991b7852b855"].flatMap String.toList

def fourHash : Text :=
  ["88d4266fd4e6338d13b845fcf289579d","209c897823b9217da3e161936f031589"].flatMap String.toList

end Sources

open Sources

/-- An attempt with two sources stops behind the first byte, and the next one gets the
whole file. -/
theorem stopped_download_completes :
    ∃ s cs s', Attempts (download "abcd".toList fourHash) "a".toList
        (env 2 "abcd".toList fourHash) s ∧
      s.files.lookup ((download "abcd".toList fourHash).partPath ⟨0,by decide⟩) = some ['a'] ∧
      client.Exec NoFailure () (handleGetsCommand "files".toList "a".toList) s cs () s' ∧
      Finished (download "abcd".toList fourHash) path "a".toList s' := by
  have h : (client.stopAfter () (handleGetsCommand "files".toList "a".toList)
      (begin 2 "abcd".toList fourHash) (List.replicate 35 .ok ++ [.count 1])).map
      (fun s => s.files.lookup ((download "abcd".toList fourHash).partPath ⟨0,by decide⟩)) =
      some (some ['a']) := by decide +kernel
  obtain ⟨s,hs,hpart⟩ := Option.map_eq_some_iff.mp h
  have hattempts := Attempts.attempt attempts (Machine.stopAfter_stops (fun _ _ _ => trivial) hs)
  obtain ⟨⟨cs,s',hx⟩,hiff⟩ := resumed_download_completes (download "abcd".toList fourHash)
    ⟨by decide +kernel,by decide⟩ (by decide +kernel) "a".toList path local_path _
    (plan_for (by decide)) (by decide) _ (serves (by decide)) _ hattempts
  exact ⟨s,cs,s',hattempts,hpart,hx,(hiff cs s' hx).mpr (by decide)⟩

/-- An empty file is not downloaded. -/
theorem empty_download_incomplete :
    ¬ ∀ (D : Download) (arg path : Text) (plan : MultiGetsPlan) (env : Environment) (s : State),
      D.Valid → D.Roomy → buildClientLocalFilePath maxPathLen D.dir arg = some path →
        PlanFor D plan → plan.fileName.length ≤ maxVfsNameLen → Serves D arg plan env →
          Attempts D arg env s → ∀ cs s',
            client.Exec NoFailure () (handleGetsCommand D.dir arg) s cs () s' →
              Finished D path plan.fileName s' := by
  intro hall
  have hD : (download [] emptyHash).Valid := ⟨by decide +kernel,by decide⟩
  have hroom : (download [] emptyHash).Roomy := by decide +kernel
  have hplan : PlanFor (download [] emptyHash) (plan 1 [] emptyHash) := plan_for (by decide)
  have hs : Serves (download [] emptyHash) "a".toList (plan 1 [] emptyHash) (env 1 [] emptyHash) :=
    serves (by decide)
  have hkept := attempts_kept hD hroom local_path hplan (by decide) hs attempts
  obtain ⟨cs,_,s',hx⟩ := Machine.exec_total client_progress
    (handleGetsCommand (download [] emptyHash).dir "a".toList) (begin 1 [] emptyHash)
  have hends := (Machine.exec_always hx
    (holds_handleGetsCommand hD hroom local_path hplan (by decide) hs hkept)).2
  have hfin := hall _ _ _ _ _ _ hD hroom local_path hplan (by decide) hs attempts cs s' hx
  exact absurd ((hends noFault_noFailure).mp hfin) (by decide)

end WindCloud
