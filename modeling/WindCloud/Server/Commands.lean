import WindCloud.Lib.Quoted
import WindCloud.Lib.Runs
import WindCloud.Server.SessionMoves
import WindCloud.Server.UploadTables

/-!
# Requests one after the other

A site is one server with its database and the sessions of its control
connections. Each request is executed to its end before the next one: a control
command on a session, or an upload on a transfer connection whose ticket has
been accepted.
-/

set_option autoImplicit false

namespace WindCloud
open CString Effect Function Runs

structure Site (ι : Type) where
  world : World ι
  sessions : ℕ → ClientContext

inductive Request where
  | connect (k : ℕ)
  | command (k : ℕ) (cmdType : CmdType) (data : Text)
  | upload (userId : ℤ) (fullPath : Text) (peer : Connection)

/-- No text of the request holds a quote or a backslash. -/
def Request.Unquoted : Request → Prop
  | .connect _ => True
  | .command _ _ data => unquoted data = true
  | .upload _ fullPath peer => unquoted fullPath = true ∧ unquoted peer.hello.hash = true

instance : (q : Request) → Decidable q.Unquoted
  | .connect _ => .isTrue trivial
  | .command _ _ data => inferInstanceAs (Decidable (unquoted data = true))
  | .upload _ fullPath peer =>
    inferInstanceAs (Decidable (unquoted fullPath = true ∧ unquoted peer.hello.hash = true))

/-- A request with the outcomes of the operations that serve it. -/
structure Round (C : Type) where
  request : Request
  outcomes : List C

def newSession : ClientContext := ⟨-1,"/".toList,0⟩

section Sites

variable {ι C : Type} [DecidableEq ι]

/-- The transfer connection of a peer has been accepted. -/
def World.meet (w : World ι) (i : ι) (peer : Connection) : World ι :=
  { w with node := (w.node.setConn i peer).setDesc i none }

/-- One request, served by agent `i` of a machine. -/
def Site.step (m : Machine Op Op.Res ι (World ι) C) (i : ι) (s : Site ι) (e : Round C) :
    Option (Site ι) :=
  match e.request with
  | .connect k => some { s with sessions := update s.sessions k newSession }
  | .command k cmdType data =>
    (m.run i (dispatchControlCommand (s.sessions k) cmdType data) s.world e.outcomes).map
      fun r => ⟨r.2,update s.sessions k r.1⟩
  | .upload userId fullPath peer =>
    (m.run i (serveUpload userId fullPath) (s.world.meet i peer) e.outcomes).map
      fun r => { s with world := r.2 }

def Round.wellFormed (e : Round C) : Prop :=
  match e.request with
  | .upload _ _ peer => Hex.IsHash peer.hello.hash
  | _ => True

instance (e : Round C) : Decidable e.wellFormed :=
  match h : e.request with
  | .upload _ _ peer =>
    decidable_of_iff (Hex.IsHash peer.hello.hash) (by simp [Round.wellFormed,h])
  | .connect _ | .command _ _ _ => .isTrue (by simp [Round.wellFormed,h])

variable {m : Machine Op Op.Res ι (World ι) C} {i : ι} {s s' : Site ι} {e : Round C}

theorem step_within {m' : Machine Op Op.Res ι (World ι) C} (hm : m.Within m')
    (h : s.step m i e = some s') : s.step m' i e = some s' := by
  cases he : e.request with
  | connect k =>
    rw [Site.step,he] at h ⊢
    exact h
  | command k cmdType data =>
    rw [Site.step,he] at h ⊢
    obtain ⟨r,hrun,hr⟩ := Option.map_eq_some_iff.mp h
    exact Option.map_eq_some_iff.mpr ⟨r,Machine.run_within hm hrun,hr⟩
  | upload userId fullPath peer =>
    rw [Site.step,he] at h ⊢
    obtain ⟨r,hrun,hr⟩ := Option.map_eq_some_iff.mp h
    exact Option.map_eq_some_iff.mpr ⟨r,Machine.run_within hm hrun,hr⟩

theorem step_connect {k : ℕ} (he : e.request = .connect k) (h : s.step m i e = some s') :
    s' = { s with sessions := update s.sessions k newSession } := by
  rw [Site.step,he] at h
  exact (Option.some.inj h).symm

theorem step_command {k : ℕ} {cmdType : CmdType} {data : Text}
    (he : e.request = .command k cmdType data) (h : s.step m i e = some s') :
    ∃ ctx w, m.run i (dispatchControlCommand (s.sessions k) cmdType data) s.world e.outcomes =
      some (ctx,w) ∧ s' = ⟨w,update s.sessions k ctx⟩ := by
  rw [Site.step,he] at h
  obtain ⟨⟨ctx,w⟩,hrun,hs⟩ := Option.map_eq_some_iff.mp h
  exact ⟨ctx,w,hrun,hs.symm⟩

theorem step_upload {userId : ℤ} {fullPath : Text} {peer : Connection}
    (he : e.request = .upload userId fullPath peer) (h : s.step m i e = some s') :
    ∃ w, m.run i (serveUpload userId fullPath) (s.world.meet i peer) e.outcomes = some ((),w) ∧
      s' = { s with world := w } := by
  rw [Site.step,he] at h
  obtain ⟨⟨u,w⟩,hrun,hs⟩ := Option.map_eq_some_iff.mp h
  exact ⟨w,hrun,hs.symm⟩

end Sites

/-- The server with nothing else running, whose outcomes are checked. -/
abbrev checkedServer (lib : Library) (check : Op → World Unit → Choice → Bool) :
    Machine Op Op.Res Unit (World Unit) Choice :=
  (server Unit lib).restrict check

/-- The runs of a site with nothing else running, all of whose uploads declare
well-formed hashes and all of whose outcomes are checked. -/
abbrev SiteRun (lib : Library) (check : Op → World Unit → Choice → Bool) (s t : Site Unit) : Prop :=
  Runs.Reached (Site.step (checkedServer lib check) ()) (fun _ e => e.wellFormed) s t

/-- Commands that bring the tables to one state whenever a user issues them. -/
def CmdType.decisive : CmdType → Bool
  | .rm | .mkdir | .rmdir => true
  | _ => false

inductive Commanded (db : Db) (ctx : ClientContext) (data : Text) : CmdType → Db → Prop
  | kept (cmdType : CmdType) (idle : ctx.userId = -1 ∨ cmdType.decisive = false) :
      Commanded db ctx data cmdType db
  | registered (username passwordHash salt : Text) (new : ∀ r ∈ db.users, r.username ≠ username) :
      Commanded db ctx data .register (db.addUser username passwordHash salt)
  | touched (inside : ctx.userId ≠ -1) :
      Commanded db ctx data .touch (db.touch ctx data emptyFileBytes)
  | removed (inside : ctx.userId ≠ -1) : Commanded db ctx data .rm (db.rm ctx data)
  | made (inside : ctx.userId ≠ -1) : Commanded db ctx data .mkdir (db.mkdir ctx data)
  | dropped (inside : ctx.userId ≠ -1) : Commanded db ctx data .rmdir (db.rmdir ctx data)

inductive Moved (db : Db) (ctx : ClientContext) (data : Text) : CmdType → ClientContext → Prop
  | stayed (cmdType : CmdType) : Moved db ctx data cmdType ctx
  | logged (userId : ℤ) (known : userId = -1 ∨ ∃ r ∈ db.users, userId = r.id) :
      Moved db ctx data .login (loginContext ctx userId)
  | entered (id : ℕ) (inside : ctx.userId ≠ -1)
      (found : db.lookup ctx.userId (followed ctx.currentPath data) = some (id,1)) :
      Moved db ctx data .cd
        { ctx with currentPath := followed ctx.currentPath data, currentDirId := id }

/-- The hash of the store file that a command unlinks. -/
def Db.unlinks (db : Db) (ctx : ClientContext) (cmdType : CmdType) (data : Text) : Option Text :=
  if cmdType = .rm ∧ ctx.userId ≠ -1 then
    (db.removable ctx data).bind fun e => db.lastHash e.2
  else none

structure Dispatched (ok : Op → World Unit → Choice → Prop) (w : World Unit) (ctx : ClientContext)
    (cmdType : CmdType) (data : Text) (ctx' : ClientContext) (w' : World Unit) : Prop where
  tables : Commanded w.db ctx data cmdType w'.db
  session : Moved w.db ctx data cmdType ctx'
  unlinks : Unlinks ok w (w.db.unlinks ctx cmdType data) w'

namespace Op

/-- Operations that neither change the tables nor unlink a file. -/
def still : Op → Bool
  | .sql s => s.reads
  | .unlink _ => false
  | _ => true

end Op

abbrev Still {α : Type} (p : Server α) : Prop := p.Uses fun o => o.still = true

section Reading

variable {ι : Type} [DecidableEq ι] {lib : Library} {ok : Op → World ι → Choice → Prop} {i : ι}
  {α β : Type} {w : World ι}

theorem execute_still {o : Op} {r : o.Res} {w' : World ι} {c : Choice} (ho : o.still = true)
    (h : execute lib o i w c = some (r,w')) : SameTables w w' := by
  by_cases hs : o.tableless = true
  · exact execute_tableless hs h
  cases o <;> simp only [Op.tableless,not_true] at hs
  case sql t =>
    rcases execute_sql h with ⟨_,db,he,rfl⟩ | ⟨_,_,rfl⟩
    · have hdb := Statement.exec_reads (s := t) ho w.db
      rw [he] at hdb
      exact ⟨hdb,rfl,rfl⟩
    · exact ⟨rfl,rfl,rfl⟩
  case unlink path => cases ho

theorem solo_still {p : Server α} {Q : α → World ι → Prop} (hp : Still p)
    (hQ : ∀ a w', SameTables w w' → Q a w') : Solo lib ok i p Q w := by
  induction p generalizing w with
  | ret a => exact hQ a w ⟨rfl,rfl,rfl⟩
  | op o k ih =>
    intro c r w₁ _ hx
    have h₁ := execute_still hp.1 hx
    exact ih r (hp.2 r) fun a w' h' => hQ a w' (sameTables_trans h₁ h')

theorem still_bind {p : Server α} {f : α → Server β} (hp : Still p) (hf : ∀ a, Still (f a)) :
    Still (p >>= f) :=
  Program.uses_bind p f hp hf

theorem still_sql {t : Statement} (ht : t.reads = true) : Still (sql t) :=
  ⟨ht,fun _ => trivial⟩

theorem still_sendMsg (msg : Text) : Still (sendMsg msg) := ⟨rfl,fun _ => trivial⟩

theorem still_issueTransferTicket (g : Grant) (size : ℕ) : Still (issueTransferTicket g size) :=
  issueTransferTicket_uses (fun o => o.still = true) rfl (fun _ => rfl) (fun _ => rfl)
    (fun _ _ => rfl) g size

theorem still_ls (ctx : ClientContext) : Still (handleLs ctx) := by
  refine still_bind (listDir_uses (fun o => o.still = true) (fun _ _ => rfl) rfl _ _) fun r => ?_
  cases r with
  | none => exact still_sendMsg _
  | some text =>
    dsimp only
    split <;> exact still_sendMsg _

theorem still_plan (ctx : ClientContext) (arg : Text) : Still (handleMultiGetsPlan ctx arg) := by
  have hsend : ∀ p, Still (sendMultiGetsPlanPacket p) := fun _ => ⟨rfl,fun _ => trivial⟩
  unfold handleMultiGetsPlan
  split
  · exact hsend _
  refine still_bind (getFileInfoByPath_uses (fun o => o.still = true) (fun _ _ => rfl) _ _)
    fun r => ?_
  rcases r with _ | ⟨_,fileId⟩
  · exact hsend _
  refine still_bind (still_sql rfl) fun r => ?_
  rcases (r : Option (Text × ℤ)) with _ | ⟨h,size⟩
  · exact hsend _
  refine still_bind (loadAvailableSources_uses (fun o => o.still = true) rfl (fun _ => rfl) _)
    fun r => ?_
  cases r <;> exact hsend _

theorem still_refuseTicket (message : String) : Still (refuseTicket message) :=
  ⟨rfl,fun _ => trivial⟩

theorem still_rangeTicket (ctx : ClientContext) (arg : Text) :
    Still (handleGetsRangeTicketPrepare ctx arg) := by
  unfold handleGetsRangeTicketPrepare
  split
  · exact still_refuseTicket _
  split
  · exact still_refuseTicket _
  refine still_bind (getFileInfoByPath_uses (fun o => o.still = true) (fun _ _ => rfl) _ _)
    fun r => ?_
  rcases r with _ | ⟨_,fileId⟩
  · exact still_refuseTicket _
  refine still_bind (loadAvailableSources_uses (fun o => o.still = true) rfl (fun _ => rfl) _)
    fun r => ?_
  cases r with
  | none => exact still_refuseTicket _
  | some sources =>
    dsimp only
    split
    · refine still_bind (still_issueTransferTicket _ _) fun r => ?_
      cases r <;> exact ⟨rfl,fun _ => trivial⟩
    · exact still_refuseTicket _

theorem still_transferTicket (ctx : ClientContext) (cmdType : CmdType) (arg : Text) :
    Still (handleTransferPrepare ctx cmdType arg) := by
  unfold handleTransferPrepare
  split
  · exact still_refuseTicket _
  refine still_bind (getCurrentServerAddress_uses (fun o => o.still = true) rfl _ _) fun r => ?_
  rcases r with _ | ⟨ip,port⟩
  · exact still_refuseTicket _
  · refine still_bind (still_issueTransferTicket _ _) fun r => ?_
    cases r <;> exact ⟨rfl,fun _ => trivial⟩

end Reading

section Sessions

variable {ι : Type} [DecidableEq ι] {lib : Library} {ok : Op → World ι → Choice → Prop} {i : ι}
  {w : World ι} {ctx : ClientContext} {data : Text}

theorem solo_login (hok : StatementsHold ok) (data : Text) :
    Solo lib ok i (handleLogin data) (fun userId w' =>
      SameTables w w' ∧ (userId = -1 ∨ ∃ r ∈ w.db.users, userId = r.id)) w := by
  have hrefuse : ∀ message w₁, SameTables w w₁ → Solo lib ok i (refuseLogin message)
      (fun userId w' => SameTables w w' ∧ (userId = -1 ∨ ∃ r ∈ w.db.users, userId = r.id)) w₁ := by
    intro message w₁ h c r w₂ _ hx
    exact ⟨sameTables_trans h (execute_tableless rfl hx),.inl rfl⟩
  unfold handleLogin
  split
  · exact hrefuse _ w ⟨rfl,rfl,rfl⟩
  rename_i userName userPasswd _
  refine solo_sql hok ?_
  simp only [Statement.exec]
  cases hu : w.db.users.find? fun r => r.username = userName with
  | none => exact hrefuse _ w ⟨rfl,rfl,rfl⟩
  | some user =>
    refine solo_before (hashPassword_uses (fun o => o.tableless = true) (fun _ => rfl) _ _)
      fun computedHash w₁ h₁ => ?_
    split
    · refine solo_before (jwtCreateForUser_uses (fun o => o.tableless = true) rfl (fun _ => rfl) _ _)
        fun token w₂ h₂ => ?_
      cases token with
      | none => exact hrefuse _ w₂ (sameTables_trans h₁ h₂)
      | some token =>
        intro c r w₃ _ hx
        have h₃ := sameTables_trans (sameTables_trans h₁ h₂) (execute_tableless rfl hx)
        exact ⟨h₃,.inr ⟨user,List.mem_of_find?_eq_some hu,rfl⟩⟩
    · exact hrefuse _ w₁ h₁

theorem solo_register (hok : StatementsHold ok) (ctx : ClientContext) (data : Text) :
    Solo lib ok i (handleRegister data) (fun _ w' => Commanded w.db ctx data .register w'.db ∧
      w'.node.unlinked = w.node.unlinked ∧ w'.node.storeDir = w.node.storeDir) w := by
  unfold handleRegister
  split
  · refine solo_tableless ⟨rfl,fun _ => trivial⟩ fun _ w' h => ⟨?_,h.unlinked,h.storeDir⟩
    rw [h.db]
    exact .kept _ (.inr rfl)
  rename_i userName userPasswd _
  refine solo_before (generateSalt_uses (fun o => o.tableless = true) (fun _ => rfl) rfl
    fun _ => rfl) fun salt w₁ h₁ => ?_
  refine solo_before (hashPassword_uses (fun o => o.tableless = true) (fun _ => rfl) _ _)
    fun passwordHash w₂ h₂ => ?_
  have h := sameTables_trans h₁ h₂
  refine solo_sql hok ?_
  simp only [Statement.exec]
  split
  · refine solo_tableless ⟨rfl,fun _ => trivial⟩ fun _ w' h' =>
      ⟨?_,h'.unlinked.trans h.unlinked,h'.storeDir.trans h.storeDir⟩
    rw [h'.db,h.db]
    exact .kept _ (.inr rfl)
  · rename_i hnew
    refine solo_still (still_bind (registeredId_uses (fun o => o.still = true) (fun _ => rfl) _)
      fun _ => ⟨rfl,fun _ => trivial⟩) fun _ w' h' =>
        ⟨?_,h'.unlinked.trans h.unlinked,h'.storeDir.trans h.storeDir⟩
    rw [h'.db]
    change Commanded w.db ctx data .register (w₂.db.addUser userName passwordHash salt)
    rw [h.db] at hnew ⊢
    exact .registered _ _ _ (by simpa using hnew)

theorem solo_enterDir (hok : StatementsHold ok) (hin : ctx.userId ≠ -1) {path : Text}
    (hpath : path = followed ctx.currentPath data) :
    Solo lib ok i (enterDir ctx path)
      (fun ctx' w' => SameTables w w' ∧ Moved w.db ctx data .cd ctx') w := by
  refine solo_getNodeByPath hok ?_
  rcases hl : w.db.lookup ctx.userId path with _ | ⟨targetId,nodeType⟩
  · exact solo_bind (solo_sendMsg fun w' h => ⟨h,.stayed _⟩)
  · dsimp only
    split
    · exact solo_bind (solo_sendMsg fun w' h => ⟨h,.stayed _⟩)
    · rename_i ht
      obtain rfl := not_not.mp ht
      refine solo_bind (solo_sendMsg fun w' h => ⟨h,?_⟩)
      subst hpath
      exact .entered targetId hin hl

theorem solo_cd (hok : StatementsHold ok) (hin : ctx.userId ≠ -1) :
    Solo lib ok i (handleCd ctx data)
      (fun ctx' w' => SameTables w w' ∧ Moved w.db ctx data .cd ctx') w := by
  unfold handleCd
  split
  · exact solo_bind (solo_sendMsg fun w' h => ⟨h,.stayed _⟩)
  split
  · rename_i hup
    exact solo_strcpy fun _ => solo_enterDir hok hin (by rw [followed,if_pos hup])
  rename_i hup
  split
  · exact solo_bind (solo_sendMsg fun w' h => ⟨h,.stayed _⟩)
  · exact solo_strcpy fun _ => solo_enterDir hok hin (by rw [followed,if_neg hup])

end Sessions

section Dispatch

variable {lib : Library} {ok : Op → World Unit → Choice → Prop} {w : World Unit}

theorem unlinks_other {db : Db} {ctx : ClientContext} {cmdType : CmdType} {data : Text}
    (h : cmdType ≠ .rm) : db.unlinks ctx cmdType data = none := by
  rw [Db.unlinks,if_neg fun hc => h hc.1]

theorem solo_dispatched {ctx : ClientContext} {cmdType : CmdType} {data : Text} {p : Server Unit}
    (h : Solo lib ok () p (fun _ w' => Commanded w.db ctx data cmdType w'.db ∧
      Unlinks ok w (w.db.unlinks ctx cmdType data) w') w) :
    Solo lib ok () (p >>= fun _ => pure ctx) (Dispatched ok w ctx cmdType data) w := by
  refine solo_bind (Machine.wlp_mono _ ?_ h)
  rintro _ w' ⟨ht,hu⟩
  exact ⟨ht,.stayed _,hu⟩

theorem solo_dispatch (hok : StatementsHold ok) (ctx : ClientContext) (cmdType : CmdType)
    (data : Text) : Solo lib ok () (dispatchControlCommand ctx cmdType data)
      (Dispatched ok w ctx cmdType data) w := by
  have hstill : ∀ {p : Server Unit}, Still p → ctx.userId = -1 ∨ cmdType.decisive = false →
      Solo lib ok () (p >>= fun _ => pure ctx) (Dispatched ok w ctx cmdType data) w := by
    intro p hp hr
    refine solo_dispatched (solo_still hp fun _ w' h => ⟨?_,?_⟩)
    · rw [h.db]
      exact .kept _ hr
    · have hnone : w.db.unlinks ctx cmdType data = none := by
        rw [Db.unlinks,if_neg]
        rintro ⟨rfl,hin⟩
        rcases hr with hr | hr
        · exact hin hr
        · cases hr
      rw [hnone]
      exact unlinks_none h.storeDir h.unlinked
  have hleads : ∀ {p : Server Unit} {db : Db}, Commanded w.db ctx data cmdType db →
      cmdType ≠ .rm → Solo lib ok () p (fun _ => Leads w db) w →
      Solo lib ok () (p >>= fun _ => pure ctx) (Dispatched ok w ctx cmdType data) w := by
    intro p db hc hr hp
    refine solo_dispatched (Machine.wlp_mono _ ?_ hp)
    rintro _ w' ⟨hdb,hu,hd⟩
    rw [hdb,unlinks_other hr]
    exact ⟨hc,unlinks_none hd hu⟩
  unfold dispatchControlCommand
  split
  · rename_i hout
    exact hstill (still_sendMsg _) (.inl hout.1)
  rename_i hin
  have huser : cmdType ≠ .login → cmdType ≠ .register → ctx.userId ≠ -1 :=
    fun hl hr h => hin ⟨h,hl,hr⟩
  cases cmdType with
  | login =>
    refine solo_bind (Machine.wlp_mono _ ?_ (solo_login hok data))
    rintro userId w' ⟨h,hid⟩
    refine ⟨?_,.logged userId hid,?_⟩
    · rw [h.db]
      exact .kept _ (.inr rfl)
    · rw [unlinks_other (by decide)]
      exact unlinks_none h.storeDir h.unlinked
  | register =>
    refine solo_bind (Machine.wlp_mono _ ?_ (solo_register hok ctx data))
    rintro _ w' ⟨ht,hu,hd⟩
    refine ⟨ht,.stayed _,?_⟩
    rw [unlinks_other (by decide)]
    exact unlinks_none hd hu
  | pwd => exact hstill (still_sendMsg _) (.inr rfl)
  | cd =>
    refine Machine.wlp_mono _ ?_ (solo_cd hok (huser (by decide) (by decide)))
    rintro ctx' w' ⟨h,hm⟩
    refine ⟨?_,hm,?_⟩
    · rw [h.db]
      exact .kept _ (.inr rfl)
    · rw [unlinks_other (by decide)]
      exact unlinks_none h.storeDir h.unlinked
  | ls => exact hstill (still_ls ctx) (.inr rfl)
  | touch =>
    refine solo_dispatched (Machine.wlp_mono _ ?_ (solo_touch hok ctx data))
    rw [unlinks_other (by decide)]
    rintro _ w' (⟨hdb,hu,hd⟩ | ⟨hdb,hu,hd⟩)
    · exact ⟨hdb ▸ .touched (huser (by decide) (by decide)),unlinks_none hd hu⟩
    · exact ⟨hdb ▸ .kept _ (.inr rfl),unlinks_none hd hu⟩
  | rm =>
    have hlogged := huser (by decide) (by decide)
    refine solo_dispatched (Machine.wlp_mono _ ?_ (solo_rm hok ctx data))
    rw [Db.unlinks,if_pos ⟨rfl,hlogged⟩]
    rintro _ w' ⟨hdb,hu⟩
    exact ⟨hdb ▸ .removed hlogged,hu⟩
  | mkdir =>
    exact hleads (.made (huser (by decide) (by decide))) (by decide) (solo_mkdir hok ctx data)
  | rmdir =>
    exact hleads (.dropped (huser (by decide) (by decide))) (by decide) (solo_rmdir hok ctx data)
  | gets => exact hstill (still_plan ctx data) (.inr rfl)
  | getsRange => exact hstill (still_rangeTicket ctx data) (.inr rfl)
  | puts => exact hstill (still_transferTicket ctx .puts data) (.inr rfl)
  | invalid | reply => exact hstill (still_sendMsg _) (.inr rfl)

end Dispatch

section Steps

variable {lib : Library} {check : Op → World Unit → Choice → Bool} {s s' : Site Unit}
  {e : Round Choice}

abbrev Checked (check : Op → World Unit → Choice → Bool) (o : Op) (w : World Unit) (c : Choice) :
    Prop :=
  check o w c = true

theorem checked_run {α : Type} {p : Server α} {w w' : World Unit} {cs : List Choice} {a : α}
    {Q : α → World Unit → Prop} (h : (checkedServer lib check).run () p w cs = some (a,w'))
    (hp : Solo lib (Checked check) () p Q w) : Q a w' :=
  Machine.exec_wlp (Machine.restrict_exec (Machine.run_exec h)) hp

theorem command_dispatched (hok : StatementsHold (Checked check)) {k : ℕ} {cmdType : CmdType}
    {data : Text} (he : e.request = .command k cmdType data)
    (h : s.step (checkedServer lib check) () e = some s') :
    ∃ ctx, s'.sessions = update s.sessions k ctx ∧
      Dispatched (Checked check) s.world (s.sessions k) cmdType data ctx s'.world := by
  obtain ⟨ctx,w,hrun,rfl⟩ := step_command he h
  exact ⟨ctx,rfl,checked_run hrun (solo_dispatch hok _ _ _)⟩

theorem upload_uploaded (hok : StatementsHold (Checked check)) {userId : ℤ} {fullPath : Text}
    {peer : Connection} (he : e.request = .upload userId fullPath peer) (hw : e.wellFormed)
    (h : s.step (checkedServer lib check) () e = some s') :
    s'.sessions = s.sessions ∧ s'.world.node.unlinked = s.world.node.unlinked ∧
      (s'.world.db = s.world.db ∨ ∃ bs ctx arg, Hex.unhex peer.hello.hash = some bs ∧
        s.world.db.transferContext userId fullPath = some (ctx,arg) ∧
        Uploaded s.world.db ctx arg bs peer.hello.fileSize s'.world.db) := by
  have hh : Hex.IsHash peer.hello.hash := by
    unfold Round.wellFormed at hw
    rw [he] at hw
    exact hw
  obtain ⟨bs,hb,-,-⟩ := Hex.unhex_hash hh
  obtain ⟨w,hrun,rfl⟩ := step_upload he h
  have hconn : ((s.world.meet () peer).node.conn ()).hello = peer.hello := by
    simp [World.meet,Node.setConn,Node.setDesc]
  obtain ⟨hdb,hu,-⟩ := checked_run hrun (solo_serveUpload (w := s.world.meet () peer) hok
    (hconn ▸ hh) (hconn ▸ hb) userId fullPath)
  rw [hconn] at hdb
  refine ⟨rfl,hu,?_⟩
  rcases hdb with hdb | ⟨ctx,arg,hctx,hup⟩
  · exact .inl hdb
  · exact .inr ⟨bs,ctx,arg,hb,hctx,hup⟩

end Steps

end WindCloud
