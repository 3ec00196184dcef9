import WindCloud.Server.Inventory
import WindCloud.Server.SeatRuns
import WindCloud.Server.SqlServer

/-!
# Who a session acts for

The rows of the users are entered by registrations and never change. A session
acts for a user only since its own last login, whose password has the hash of the
one the user was registered with.
-/

set_option autoImplicit false

namespace WindCloud
open CString Effect Function Runs

/-- The credentials are a user's name and a password with the user's hash. -/
def Fits (lib : Library) (data : Text) (row : UserRow) : Prop :=
  ∃ userPasswd, splitCredentials data = some (row.username,userPasswd) ∧
    Hex.hexLower (lib.sha256 ((userPasswd ++ row.salt).take 255)) = row.passwordHash

section Requests

variable {C : Type}

/-- A registration with the credentials of this user. -/
def Round.Enrols (lib : Library) (row : UserRow) (e : Round C) : Prop :=
  ∃ k data, e.request = .command k .register data ∧ Fits lib data row

/-- A login of session `k` with the credentials of this user. -/
def Round.Admits (lib : Library) (k : ℕ) (row : UserRow) (e : Round C) : Prop :=
  ∃ data, e.request = .command k .login data ∧ Fits lib data row

/-- The requests that give session `k` its user. -/
def Round.Reassigns (k : ℕ) (e : Round C) : Prop :=
  e.request = .connect k ∨ ∃ data, e.request = .command k .login data

end Requests

namespace Op

def unenrolling : Op → Bool
  | .sql (.insertUser _ _ _) => false
  | _ => true

end Op

section Along

variable {ι : Type} [DecidableEq ι] {lib : Library} {i : ι} {w : World ι} {ctx : ClientContext}
  {data : Text}

theorem execute_users {o : Op} {r : o.Res} {w' : World ι} {c : Choice} (ho : o.unenrolling = true)
    (h : execute lib o i w c = some (r,w')) : w'.db.users = w.db.users := by
  by_cases hs : o.isSql = false
  · rw [execute_db hs h]
  cases o <;> simp only [Op.isSql,not_true] at hs
  rename_i t
  rcases execute_sql h with ⟨_,db,he,rfl⟩ | ⟨_,_,rfl⟩
  · have hkept : (t.exec w.db).2.users = w.db.users := by
      by_cases hread : t.reads = true
      · rw [Statement.exec_reads hread]
      cases t <;> simp only [Statement.reads,not_true] at hread <;> simp only [Statement.exec]
      case insertUser => cases ho
      case createNode => split <;> rfl
      case createFileNode => split <;> rfl
      case insertFile =>
        split
        · rfl
        · split <;> rfl
      case upsertSource =>
        unfold Db.putSource
        split <;> rfl
      all_goals rfl
    rw [he] at hkept
    exact hkept
  · rfl

theorem along_users {α : Type} {p : Server α} (hp : p.Uses fun o => o.unenrolling = true) :
    Along lib i p (fun _ w' => w'.db.users = w.db.users) w := by
  refine Machine.wlp_uses (I := fun v : World ι => v.db.users = w.db.users) ?_ hp rfl
  intro o v c r v' ho hv hx
  obtain ⟨u,hu,hx⟩ := Machine.among_exec hx
  exact (execute_users ho hx).trans ((others_aside hu).users.trans hv)

theorem unenrolling_licensed {cmdType : CmdType} (hc : cmdType ≠ .register) (o : Op)
    (ho : Licensed ctx data cmdType o) : o.unenrolling = true := by
  cases ho with
  | plain _ ho =>
    cases o with
    | sql t => cases t <;> first | rfl | cases ho
    | _ => rfl
  | insertUser => exact absurd rfl hc
  | enter ht | release ht =>
    rename_i t
    cases t <;> first | rfl | cases ht
  | _ => rfl

theorem along_any {α β : Type} {p : Server α} {f : α → Server β} {Q : β → World ι → Prop}
    (hf : ∀ a w', Along lib i (f a) Q w') : Along lib i (p >>= f) Q w :=
  along_bind (Machine.wlp_mono _ (fun a w' _ => hf a w') (Machine.wlp_true p w))

theorem along_register (data : Text) :
    Along lib i (handleRegister data) (fun _ w' => w'.db.users = w.db.users ∨
      ∃ row, Fits lib data row ∧ w'.db.users = w.db.users ++ [row]) w := by
  have hreply : ∀ {α : Type} {p : Server α} (w₁ : World ι),
      (w₁.db.users = w.db.users ∨ ∃ row, Fits lib data row ∧ w₁.db.users = w.db.users ++ [row]) →
      (p.Uses fun o => o.unenrolling = true) → Along lib i p (fun _ w' =>
        w'.db.users = w.db.users ∨ ∃ row, Fits lib data row ∧ w'.db.users = w.db.users ++ [row]) w₁ := by
    intro α p w₁ h hp
    refine Machine.wlp_mono _ ?_ (along_users hp)
    intro _ w' hw
    rw [hw]
    exact h
  unfold handleRegister
  split
  · exact hreply w (.inl rfl) ⟨rfl,fun _ => trivial⟩
  rename_i userName userPasswd hsplit
  refine along_bind (Machine.wlp_mono _ ?_ (along_users
    (generateSalt_uses (fun o => o.unenrolling = true) (fun _ => rfl) rfl fun _ => rfl)))
  intro salt w₁ h₁
  refine along_op fun v c digest w₂ hv hx => ?_
  have hdigest : digest = lib.sha256 ((userPasswd ++ salt).take 255) := by
    cases c <;> cases hx
    rfl
  have h₂ : w₂.db.users = w.db.users :=
    (execute_users rfl hx).trans (hv.users.trans h₁)
  refine along_op fun v₃ c₃ r w₃ hv₃ hx₃ => ?_
  have h₃ : w₃.db.users = w.db.users ∨ ∃ row, Fits lib data row ∧
      w₃.db.users = w.db.users ++ [row] := by
    have hbefore := hv₃.users.trans h₂
    rcases execute_sql hx₃ with ⟨_,db,he,rfl⟩ | ⟨_,_,rfl⟩
    · simp only [Statement.exec] at he
      split at he
      · obtain ⟨-,rfl⟩ := Prod.mk.inj he
        exact .inl hbefore
      · obtain ⟨-,rfl⟩ := Prod.mk.inj he
        refine .inr ⟨⟨v₃.db.nextUser,userName,Hex.hexLower digest,salt⟩,⟨userPasswd,hsplit,?_⟩,?_⟩
        · rw [hdigest]
        · rw [← hbefore]
          rfl
    · exact .inl hbefore
  cases (r : Bool) with
  | false => exact hreply w₃ h₃ ⟨rfl,fun _ => trivial⟩
  | true =>
    exact hreply w₃ h₃ (Program.uses_bind _ _ (registeredId_uses (fun o => o.unenrolling = true)
      (fun _ => rfl) _) fun _ => ⟨rfl,fun _ => trivial⟩)

theorem along_cd_user (data : Text) :
    Along lib i (handleCd ctx data) (fun ctx' _ => ctx'.userId = ctx.userId) w := by
  have hback : ∀ (msg : Text) (ctx' : ClientContext) (w₁ : World ι), ctx'.userId = ctx.userId →
      Along lib i (sendMsg msg >>= fun _ => pure ctx') (fun ctx' _ => ctx'.userId = ctx.userId) w₁ :=
    fun _ _ _ h => along_any fun _ _ => h
  have henter : ∀ path (w₁ : World ι), Along lib i (enterDir ctx path)
      (fun ctx' _ => ctx'.userId = ctx.userId) w₁ := by
    intro path w₁
    refine along_any fun r w₂ => ?_
    rcases r with _ | ⟨targetId,nodeType⟩
    · exact hback _ _ _ rfl
    · dsimp only
      split <;> exact hback _ _ _ rfl
  unfold handleCd
  split
  · exact hback _ _ _ rfl
  split
  · exact along_any fun _ _ => henter _ _
  split
  · exact hback _ _ _ rfl
  · exact along_any fun _ _ => henter _ _

/-- What a command makes of the users and of its session's user. -/
structure Credited (lib : Library) (w : World ι) (ctx : ClientContext) (cmdType : CmdType)
    (data : Text) (ctx' : ClientContext) (w' : World ι) : Prop where
  users : w'.db.users = w.db.users ∨ cmdType = .register ∧ ∃ row, Fits lib data row ∧
    w'.db.users = w.db.users ++ [row]
  session : (cmdType ≠ .login ∧ ctx'.userId = ctx.userId) ∨ (cmdType = .login ∧
    (ctx'.userId = -1 ∨ ∃ row ∈ w.db.users, Fits lib data row ∧ ctx'.userId = row.id))

theorem along_credited (ctx : ClientContext) (cmdType : CmdType) (data : Text) :
    Along lib i (dispatchControlCommand ctx cmdType data) (Credited lib w ctx cmdType data) w := by
  have husers : cmdType ≠ .register → Along lib i (dispatchControlCommand ctx cmdType data)
      (fun _ w' => w'.db.users = w.db.users) w := fun hc =>
    along_users (Program.uses_mono (unenrolling_licensed hc) (dispatch_licensed ctx cmdType data))
  have hstay : ∀ {p : Server Unit}, cmdType ≠ .login →
      Along lib i (p >>= fun _ => pure ctx) (fun ctx' _ => cmdType ≠ .login ∧
        ctx'.userId = ctx.userId) w :=
    fun hl => along_any fun _ _ => ⟨hl,rfl⟩
  by_cases hl : cmdType = .login
  · subst hl
    have hsession : Along lib i (dispatchControlCommand ctx .login data) (fun ctx' _ =>
        ctx'.userId = -1 ∨ ∃ row ∈ w.db.users, Fits lib data row ∧ ctx'.userId = (row.id : ℤ)) w := by
      unfold dispatchControlCommand
      rw [if_neg (by simp)]
      refine along_bind (Machine.wlp_mono _ ?_ (along_login data))
      rintro userId w' ⟨-,hid⟩
      have hsame : (loginContext ctx userId).userId = userId := by
        unfold loginContext
        split <;> rfl
      change (loginContext ctx userId).userId = -1 ∨ ∃ row ∈ w.db.users, Fits lib data row ∧
        (loginContext ctx userId).userId = row.id
      rw [hsame]
      refine hid.imp_right ?_
      rintro ⟨row,⟨userName,userPasswd,hsplit,hfind,hhash⟩,rfl⟩
      have hname : row.username = userName := by simpa using List.find?_some hfind
      exact ⟨row,List.mem_of_find?_eq_some hfind,⟨userPasswd,hname ▸ hsplit,hhash⟩,rfl⟩
    refine Machine.wlp_mono _ ?_ (Machine.wlp_and _ (husers (by decide)) hsession)
    rintro ctx' w' ⟨hu,hs⟩
    exact ⟨.inl hu,.inr ⟨rfl,hs⟩⟩
  have hsession : Along lib i (dispatchControlCommand ctx cmdType data)
      (fun ctx' _ => cmdType ≠ .login ∧ ctx'.userId = ctx.userId) w := by
    unfold dispatchControlCommand
    split
    · exact hstay hl
    cases cmdType with
    | login => exact absurd rfl hl
    | register => exact along_any fun _ _ => ⟨hl,rfl⟩
    | cd => exact Machine.wlp_mono _ (fun _ _ h => ⟨hl,h⟩) (along_cd_user data)
    | _ => exact hstay hl
  by_cases hr : cmdType = .register
  · subst hr
    have hentered : Along lib i (dispatchControlCommand ctx .register data) (fun _ w' =>
        w'.db.users = w.db.users ∨ ∃ row, Fits lib data row ∧
          w'.db.users = w.db.users ++ [row]) w := by
      unfold dispatchControlCommand
      rw [if_neg (by simp)]
      exact along_bind (Machine.wlp_mono _ (fun _ _ h => h) (along_register data))
    refine Machine.wlp_mono _ ?_ (Machine.wlp_and _ hsession hentered)
    rintro ctx' w' ⟨hs,hu⟩
    exact ⟨hu.imp_right fun h => ⟨rfl,h⟩,.inl hs⟩
  · refine Machine.wlp_mono _ ?_ (Machine.wlp_and _ hsession (husers hr))
    rintro ctx' w' ⟨hs,hu⟩
    exact ⟨.inl hu,.inl hs⟩

end Along

/-- Users have been enrolled, and each session with a user was let in by the last
request that gave it one. -/
structure Authenticated {ι C : Type} (lib : Library) (es : List (Round C)) (s : Site ι) : Prop where
  enrolled : ∀ row ∈ s.world.db.users, ∃ e ∈ es, e.Enrols lib row
  admitted : ∀ k, (s.sessions k).userId ≠ -1 → ∃ row ∈ s.world.db.users,
    (s.sessions k).userId = row.id ∧ ∃ before e after, es = before ++ e::after ∧
      (∃ e₀ ∈ before, e₀.Enrols lib row) ∧ e.Admits lib k row ∧ ∀ e' ∈ after, ¬e'.Reassigns k

section Steps

variable {ι : Type} [DecidableEq ι] {lib : Library} {i : ι} {s s' : Site ι}
  {e : Round (List (ι × Op × Choice) × Choice)} {es : List (Round (List (ι × Op × Choice) × Choice))}

omit [DecidableEq ι] in
/-- A session that the request leaves its user stays admitted. -/
theorem admitted_later (h : Authenticated lib es s) {k : ℕ}
    (husers : ∀ row ∈ s.world.db.users, row ∈ s'.world.db.users)
    (hsame : (s'.sessions k).userId = (s.sessions k).userId) (he : ¬e.Reassigns k)
    (hin : (s'.sessions k).userId ≠ -1) : ∃ row ∈ s'.world.db.users,
      (s'.sessions k).userId = row.id ∧ ∃ before e₁ after, es ++ [e] = before ++ e₁::after ∧
        (∃ e₀ ∈ before, e₀.Enrols lib row) ∧ e₁.Admits lib k row ∧
          ∀ e' ∈ after, ¬e'.Reassigns k := by
  rw [hsame] at hin ⊢
  obtain ⟨row,hrow,hid,before,e₁,after,rfl,henrol,hentry,hrest⟩ := h.admitted k hin
  refine ⟨row,husers row hrow,hid,before,e₁,after ++ [e],by simp,henrol,hentry,fun e' he' => ?_⟩
  rcases List.mem_append.mp he' with he' | he'
  · exact hrest e' he'
  · obtain rfl := List.mem_singleton.mp he'
    exact he

omit [DecidableEq ι] in
theorem enrolled_later (h : Authenticated lib es s) {row : UserRow} (hrow : row ∈ s.world.db.users) :
    ∃ e₀ ∈ es ++ [e], e₀.Enrols lib row := by
  obtain ⟨e₀,he₀,henrol⟩ := h.enrolled row hrow
  exact ⟨e₀,List.mem_append_left _ he₀,henrol⟩

theorem upload_users (userId : ℤ) (fullPath : Text) (peer : Connection) :
    Along lib i (serveUpload userId fullPath)
      (fun _ w' => w'.db.users = s.world.db.users) (s.world.meet i peer) := by
  have htableless : ∀ o : Op, o.tableless = true → o.unenrolling = true := by
    intro o ho
    cases o <;> first | rfl | cases ho
  have henters : ∀ t : Statement, t.enters = true → (Op.sql t).unenrolling = true := by
    intro t ht
    cases t <;> first | rfl | cases ht
  have hmet : Along lib i (serveUpload userId fullPath)
      (fun _ w' => w'.db.users = (s.world.meet i peer).db.users) (s.world.meet i peer) :=
    along_users (serveUpload_uses htableless henters (fun _ _ => rfl) (fun _ _ _ _ => rfl)
      userId fullPath)
  exact hmet

theorem users_step (hx : s.step (busyServer ι lib i) i e = some s') :
    ∀ row ∈ s.world.db.users, row ∈ s'.world.db.users := by
  intro row hrow
  cases he : e.request with
  | connect k =>
    obtain rfl := step_connect he hx
    exact hrow
  | command k cmdType data =>
    obtain ⟨ctx,w,hrun,rfl⟩ := step_command he hx
    have hacc := Machine.exec_wlp (Machine.run_exec hrun)
      (along_credited (s.sessions k) cmdType data)
    rcases hacc.users with hsame | ⟨-,new,-,hnew⟩
    · dsimp only
      rw [hsame]
      exact hrow
    · dsimp only
      rw [hnew]
      exact List.mem_append_left _ hrow
  | upload userId fullPath peer =>
    obtain ⟨w,hrun,rfl⟩ := step_upload he hx
    have hsame := Machine.exec_wlp (Machine.run_exec hrun) (upload_users userId fullPath peer)
    dsimp only
    rw [hsame]
    exact hrow

theorem authenticated_step (h : Authenticated lib es s)
    (hx : s.step (busyServer ι lib i) i e = some s') : Authenticated lib (es ++ [e]) s' := by
  have husers := users_step hx
  cases he : e.request with
  | connect k =>
    obtain rfl := step_connect he hx
    refine ⟨fun row hrow => enrolled_later h hrow,fun j hin => ?_⟩
    by_cases hj : j = k
    · subst hj
      dsimp only at hin
      rw [update_self] at hin
      exact absurd rfl hin
    · refine admitted_later h husers ?_ ?_ hin
      · dsimp only
        rw [update_of_ne hj]
      · rintro (hre | ⟨data,hre⟩)
        · rw [he] at hre
          exact hj (Request.connect.inj hre).symm
        · rw [he] at hre
          cases hre
  | command k cmdType data =>
    obtain ⟨ctx,w,hrun,rfl⟩ := step_command he hx
    have hacc := Machine.exec_wlp (Machine.run_exec hrun)
      (along_credited (s.sessions k) cmdType data)
    refine ⟨fun row hrow => ?_,fun j hin => ?_⟩
    · rcases hacc.users with hsame | ⟨rfl,new,hfits,hnew⟩
      · exact enrolled_later h (hsame ▸ hrow)
      · dsimp only at hrow
        rw [hnew] at hrow
        rcases List.mem_append.mp hrow with hrow | hrow
        · exact enrolled_later h hrow
        · obtain rfl := List.mem_singleton.mp hrow
          exact ⟨e,List.mem_append_right _ (List.mem_singleton.mpr rfl),k,data,he,hfits⟩
    · by_cases hj : j = k
      · subst hj
        rcases hacc.session with ⟨hlogin,hsame⟩ | ⟨rfl,hout | ⟨row,hrow,hfits,hid⟩⟩
        · refine admitted_later h husers ?_ ?_ hin
          · dsimp only
            rw [update_self,hsame]
          · rintro (hre | ⟨data',hre⟩)
            · rw [he] at hre
              cases hre
            · rw [he] at hre
              exact hlogin (Request.command.inj hre).2.1
        · dsimp only at hin
          rw [update_self] at hin
          exact absurd hout hin
        · refine ⟨row,husers row hrow,?_,es,e,[],rfl,h.enrolled row hrow,⟨data,he,hfits⟩,by simp⟩
          dsimp only
          rw [update_self,hid]
      · refine admitted_later h husers ?_ ?_ hin
        · dsimp only
          rw [update_of_ne hj]
        · rintro (hre | ⟨data',hre⟩)
          · rw [he] at hre
            cases hre
          · rw [he] at hre
            exact hj (Request.command.inj hre).1.symm
  | upload userId fullPath peer =>
    obtain ⟨w,hrun,rfl⟩ := step_upload he hx
    have hsame := Machine.exec_wlp (Machine.run_exec hrun) (upload_users userId fullPath peer)
    refine ⟨fun row hrow => enrolled_later h (hsame ▸ hrow),fun j hin => ?_⟩
    refine admitted_later h husers rfl ?_ hin
    rintro (hre | ⟨data,hre⟩)
    · rw [he] at hre
      cases hre
    · rw [he] at hre
      cases hre

end Steps

/-- The server with its database, whose outcomes are checked, and in which transfers
go on between the operations of a command. -/
abbrev busySqlServer {ι : Type} [DecidableEq ι] (d : Database) (lib : Library)
    (check : Op → World ι → Choice → Bool) (i : ι) :
    Machine Op Op.Res ι (World ι) (List (ι × Op × Choice) × Choice) :=
  ((sqlServer ι d lib).restrict check).among (besides i)

theorem busySql_within {ι : Type} [DecidableEq ι] {d : Database} {lib : Library}
    {check : Op → World ι → Choice → Bool} {cols : TextColumns} (hd : Documented cols d)
    (hm : StatementsMeant cols fun o w c => check o w c = true) (i : ι) :
    (busySqlServer d lib check i).Within (busyServer ι lib i) := by
  rw [busySqlServer,Machine.restrict_agrees (sqlServer_agrees hd hm)]
  exact Machine.among_within (Machine.restrict_within _ check) _

namespace TwoAccounts

open Wandering (fine)

/-- Passwords that begin with a `b` have one hash, the others another one. -/
def lib : Library := { LongName.lib with sha256 := fun t => if t.head? = some 'b' then [1] else [2] }

def start : Site Unit := ⟨{ LongName.world with db := Db.empty },fun _ => newSession⟩

/-- A user is registered; a second session logs in with a wrong password, the first
one with the right one, and makes a directory. -/
def rounds : List (Round Wandering.Undisturbed) :=
  [⟨.connect 0,[]⟩,⟨.command 0 .register "a/bc".toList,
      [([],.bytes (List.replicate 16 0))] ++ fine 4⟩,
    ⟨.command 1 .login "a/c".toList,fine 3⟩,
    ⟨.command 0 .login "a/bc".toList,fine 2 ++ [([],.value 0)] ++ fine 2⟩,
    ⟨.command 0 .mkdir "d".toList,fine 3⟩]

/-- Any outcomes of statements that are meant as they are read. -/
def check : Op → World Unit → Choice → Bool := understood caseless fun _ _ _ => true

theorem busySql_eq : busySqlServer (strictDatabase caseless) lib check () =
    ((server Unit lib).restrict check).among (besides ()) := by
  have hm : StatementsMeant caseless fun o (w : World Unit) c => check o w c = true :=
    understood_meant _ _
  rw [busySqlServer,Machine.restrict_agrees (sqlServer_agrees (strict_documented caseless) hm)]

end TwoAccounts

end WindCloud
