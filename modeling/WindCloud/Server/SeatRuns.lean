import WindCloud.Server.PathBounds
import WindCloud.Server.Queries
import WindCloud.Server.Seats

/-!
# Sessions over whole runs

Every command leaves each session in a directory that is there, unless it
removes the directory of a session or lets another user in where a session is
away from the root.
-/

set_option autoImplicit false

namespace WindCloud
open CString Effect Function Runs

/-- The credentials are those of this user. -/
def AdmittedAs (lib : Library) (db : Db) (data : Text) (row : UserRow) : Prop :=
  ∃ userName userPasswd, splitCredentials data = some (userName,userPasswd) ∧
    db.users.find? (fun r => r.username = userName) = some row ∧
      Hex.hexLower (lib.sha256 ((userPasswd ++ row.salt).take 255)) = row.passwordHash

/-- A directory of the session's user that an `rmdir` of the argument removes, where the
argument holds no quotes and no backslashes. -/
def Removes (db : Db) (ctx : ClientContext) (data : Text) (r : PathRow) : Prop :=
  ctx.userId ≠ -1 ∧ r.userId = ctx.userId ∧ r.path = absPath ctx.currentPath data ∧
    ∀ x ∈ db.paths, ¬(x.userId = ctx.userId ∧ x.parentId = r.id)

/-- What a command makes of the directories and of its session. -/
structure Walked {ι : Type} (lib : Library) (w : World ι) (ctx : ClientContext) (cmdType : CmdType)
    (data : Text) (ctx' : ClientContext) (w' : World ι) : Prop where
  keyed : w'.db.Keyed
  dirs : ∀ r ∈ w.db.paths, r.type = 1 → r ∈ w'.db.paths ∨
    (cmdType = .rmdir ∧ Removes w.db ctx data r)
  session : ctx' = ctx ∨ Seated w'.db ctx' ∨ (cmdType = .login ∧ ∃ userId,
    ctx' = loginContext ctx userId ∧
      (userId = -1 ∨ ∃ row, AdmittedAs lib w.db data row ∧ userId = row.id))

section Unpruning

theorem unpruning_still (o : Op) (ho : o.still = true) : o.unpruning = true := by
  cases o with
  | sql t => cases t <;> first | rfl | cases ho
  | _ => rfl

theorem unpruning_tableless (o : Op) (ho : o.tableless = true) : o.unpruning = true := by
  cases o <;> first | rfl | cases ho

theorem unpruning_enters (t : Statement) (ht : t.enters = true) : (Op.sql t).unpruning = true := by
  cases t <;> first | rfl | cases ht

abbrev Unpruning {α : Type} (p : Server α) : Prop := p.Uses fun o => o.unpruning = true

theorem unpruning_sendMsg (msg : Text) : Unpruning (sendMsg msg) := ⟨rfl,fun _ => trivial⟩

theorem unpruning_strcpy (size : ℕ) (t : Text) : Unpruning (strcpy size t) :=
  strcpy_uses (fun o => o.unpruning = true) rfl size t

theorem unpruning_mkdir (ctx : ClientContext) (arg : Text) : Unpruning (handleMkdir ctx arg) := by
  refine creation_uses (fun o => o.unpruning = true) rfl (fun _ _ => rfl) (fun _ => rfl) fun _ _ => ?_
  refine Program.uses_bind _ _ (perform_uses rfl) fun r => ?_
  cases (r : Bool) <;> exact unpruning_sendMsg _

theorem unpruning_touch (ctx : ClientContext) (arg : Text) : Unpruning (handleTouch ctx arg) := by
  refine creation_uses (fun o => o.unpruning = true) rfl (fun _ _ => rfl) (fun _ => rfl) fun _ _ => ?_
  refine Program.uses_bind _ _ (createEmptyFileNode_uses (fun o => o.unpruning = true)
    unpruning_enters (fun _ => rfl) rfl (fun _ => rfl) fun _ => rfl) fun r => ?_
  cases r <;> exact unpruning_sendMsg _

theorem unpruning_register (data : Text) : Unpruning (handleRegister data) := by
  unfold handleRegister
  split
  · exact ⟨rfl,fun _ => trivial⟩
  refine Program.uses_bind _ _ (generateSalt_uses (fun o => o.unpruning = true) (fun _ => rfl) rfl
    fun _ => rfl) fun salt => ?_
  refine Program.uses_bind _ _ (hashPassword_uses (fun o => o.unpruning = true) (fun _ => rfl) _ _)
    fun passwordHash => ?_
  refine Program.uses_bind _ _ (perform_uses rfl) fun r => ?_
  cases (r : Bool) with
  | false => exact ⟨rfl,fun _ => trivial⟩
  | true => exact Program.uses_bind _ _ (registeredId_uses (fun o => o.unpruning = true)
      (fun _ => rfl) _) fun _ => ⟨rfl,fun _ => trivial⟩

end Unpruning

section Moves

variable {ι : Type} [DecidableEq ι] {lib : Library} {i : ι} {w : World ι} {ctx : ClientContext}
  {data : Text} {db db' : Db}

theorem seated_found {path : Text} {id : ℕ} (h : db.lookup ctx.userId path = some (id,1)) :
    Seated db { ctx with currentPath := path, currentDirId := id } := by
  intro _
  rcases lookup_some h with ⟨hroot,hid,-⟩ | ⟨r,hr,hu,hp,hid,ht⟩
  · exact .inl ⟨hroot,hid⟩
  · exact .inr ⟨r,hr,hid,hu,ht,hp⟩

theorem seated_kept (h : ∀ r ∈ db.paths, r ∈ db'.paths) (hs : Seated db ctx) : Seated db' ctx := by
  intro hin
  rcases hs hin with hroot | ⟨r,hr,hrest⟩
  · exact .inl hroot
  · exact .inr ⟨r,h r hr,hrest⟩

theorem along_enterDir (path : Text) :
    Along lib i (enterDir ctx path)
      (fun ctx' w' => NodesKept w w' ∧ (ctx' = ctx ∨ Seated w'.db ctx')) w := by
  refine along_getNodeByPath fun r w₁ h₁ _ hfound => ?_
  rcases r with _ | ⟨targetId,nodeType⟩
  · exact along_reply fun w' h => ⟨nodesKept_trans h₁ h,.inl rfl⟩
  · dsimp only
    split
    · exact along_reply fun w' h => ⟨nodesKept_trans h₁ h,.inl rfl⟩
    · rename_i ht
      obtain rfl := not_not.mp ht
      refine along_reply fun w' h => ⟨nodesKept_trans h₁ h,.inr ?_⟩
      exact seated_kept h.rows (seated_found (hfound targetId 1 rfl))

theorem along_cd (data : Text) :
    Along lib i (handleCd ctx data)
      (fun ctx' w' => NodesKept w w' ∧ (ctx' = ctx ∨ Seated w'.db ctx')) w := by
  have henter : ∀ p : Server Text, Unpruning p →
      Along lib i (p >>= fun path => enterDir ctx path)
        (fun ctx' w' => NodesKept w w' ∧ (ctx' = ctx ∨ Seated w'.db ctx')) w := by
    intro p hp
    refine along_before hp fun path w₁ h₁ => ?_
    refine Machine.wlp_mono _ ?_ (along_enterDir path)
    rintro ctx' w' ⟨h,hc⟩
    exact ⟨nodesKept_trans h₁ h,hc⟩
  unfold handleCd
  split
  · exact along_reply fun w' h => ⟨h,.inl rfl⟩
  split
  · exact henter _ (unpruning_strcpy _ _)
  split
  · exact along_reply fun w' h => ⟨h,.inl rfl⟩
  · exact henter _ (unpruning_strcpy _ _)

theorem along_login (data : Text) :
    Along lib i (handleLogin data) (fun userId w' => NodesKept w w' ∧
      (userId = -1 ∨ ∃ row, AdmittedAs lib w.db data row ∧ userId = row.id)) w := by
  have hrefuse : ∀ message w₁, NodesKept w w₁ → Along lib i (refuseLogin message)
      (fun userId w' => NodesKept w w' ∧
        (userId = -1 ∨ ∃ row, AdmittedAs lib w.db data row ∧ userId = row.id)) w₁ := by
    intro message w₁ h₁
    exact along_op fun v c r w' hv hx =>
      ⟨nodesKept_trans h₁ (nodesKept_trans hv.kept (execute_nodesKept rfl hx)),.inl rfl⟩
  unfold handleLogin
  split
  · exact hrefuse _ w (nodesKept_refl w)
  rename_i userName userPasswd hsplit
  refine along_op fun v c r w₁ hv hx => ?_
  have h₁ : NodesKept w w₁ := nodesKept_trans hv.kept (execute_nodesKept rfl hx)
  have hrow : ∀ cells, r = some cells → ∃ row,
      w.db.users.find? (fun r => r.username = userName) = some row ∧
        cells = (row.id,row.passwordHash,row.salt) := by
    intro cells hr
    rcases execute_sql hx with ⟨_,db,he,rfl⟩ | ⟨_,hfail,rfl⟩
    · obtain ⟨row,hrow,rfl⟩ := Option.map_eq_some_iff.mp ((congrArg Prod.fst he).trans hr)
      rw [hv.users] at hrow
      exact ⟨row,hrow,rfl⟩
    · rw [hfail] at hr
      cases hr
  rcases (r : Option (ℕ × Text × Text)) with _ | ⟨dbUserId,storedHash,salt⟩
  · exact hrefuse _ w₁ h₁
  obtain ⟨row,hfind,hcells⟩ := hrow _ rfl
  obtain ⟨rfl,rfl,rfl⟩ : dbUserId = row.id ∧ storedHash = row.passwordHash ∧ salt = row.salt := by
    simpa using hcells
  refine along_op fun v₂ c₂ digest w₂ hv₂ hx₂ => ?_
  have hdigest : digest = lib.sha256 ((userPasswd ++ row.salt).take 255) := by
    cases c₂ <;> cases hx₂
    rfl
  have h₂ : NodesKept w w₂ :=
    nodesKept_trans h₁ (nodesKept_trans hv₂.kept (execute_nodesKept rfl hx₂))
  change Along lib i (if Hex.hexLower digest = row.passwordHash then acceptLogin row.id
    else refuseLogin "密码错误") _ w₂
  split
  · rename_i hhash
    refine along_before (jwtCreateForUser_uses (fun o => o.unpruning = true) rfl (fun _ => rfl) _ _)
      fun token w₃ h₃ => ?_
    cases token with
    | none => exact hrefuse _ w₃ (nodesKept_trans h₂ h₃)
    | some token =>
      refine along_op fun v₄ c₄ r₄ w₄ hv₄ hx₄ => ?_
      refine ⟨nodesKept_trans (nodesKept_trans h₂ h₃)
        (nodesKept_trans hv₄.kept (execute_nodesKept rfl hx₄)),.inr ⟨row,?_,rfl⟩⟩
      exact ⟨userName,userPasswd,hsplit,hfind,hdigest ▸ hhash⟩
  · exact hrefuse _ w₂ h₂

end Moves

section Removals

variable {ι : Type} [DecidableEq ι] {lib : Library} {i : ι} {w : World ι} {ctx : ClientContext}
  {data : Text}

theorem along_strcpy {β : Type} {size : ℕ} {t : Text} {f : Text → Server β}
    {Q : β → World ι → Prop} (h : Along lib i (f t) Q w) : Along lib i (strcpy size t >>= f) Q w := by
  unfold strcpy
  split
  · exact h
  · exact fun c r w' _ _ => r.elim

theorem execute_deleteNode {userId : ℤ} {id : ℕ} {c : Choice} {r : Bool} {v w' : World ι}
    (h : execute lib (.sql (.deleteNode userId id)) i v c = some (r,w')) (hk : v.db.Keyed)
    {x : PathRow} (hx : x ∈ v.db.paths) :
    x ∈ w'.db.paths ∨ (x.id = id ∧ x.userId = userId) := by
  rcases execute_sql h with ⟨_,db,he,rfl⟩ | ⟨_,_,rfl⟩
  · have hdb : v.db.dropPath userId id = db := congrArg Prod.snd he
    rw [← hdb]
    by_cases hout : x.id = id ∧ x.userId = userId
    · exact .inr hout
    · exact .inl (List.mem_filter.mpr ⟨hx,decide_eq_true hout⟩)
  · exact .inl hx

theorem along_rm (hk : w.db.Keyed) (data : Text) :
    Along lib i (handleRm ctx data) (fun _ w' => w'.db.Keyed ∧
      ∀ x ∈ w.db.paths, x.type = 1 → x ∈ w'.db.paths) w := by
  have hsend : ∀ msg (w₁ : World ι), w₁.db.Keyed →
      (∀ x ∈ w.db.paths, x.type = 1 → x ∈ w₁.db.paths) → Along lib i (sendMsg msg)
        (fun _ w' => w'.db.Keyed ∧ ∀ x ∈ w.db.paths, x.type = 1 → x ∈ w'.db.paths) w₁ := by
    intro msg w₁ hk₁ hx₁
    exact along_kept (unpruning_sendMsg _) fun _ w' h =>
      ⟨h.keyed hk₁,fun x hx ht => h.rows x (hx₁ x hx ht)⟩
  have hkept : ∀ msg (w₁ : World ι), NodesKept w w₁ → Along lib i (sendMsg msg)
      (fun _ w' => w'.db.Keyed ∧ ∀ x ∈ w.db.paths, x.type = 1 → x ∈ w'.db.paths) w₁ :=
    fun msg w₁ h => hsend msg w₁ (h.keyed hk) fun x hx _ => h.rows x hx
  unfold handleRm
  split
  · exact hkept _ w (nodesKept_refl w)
  refine along_before (unpruning_strcpy _ _) fun path w₀ h₀ => ?_
  refine along_getNodeByPath fun r w₁ h₁ _ hfound => ?_
  have h₁ := nodesKept_trans h₀ h₁
  rcases r with _ | ⟨targetId,nodeType⟩
  · exact hkept _ w₁ h₁
  dsimp only
  split
  · exact hkept _ w₁ h₁
  rename_i htype
  refine along_before (getFileInfoByPath_uses (fun o => o.unpruning = true) (fun _ _ => rfl) _ _)
    fun r w₂ h₂ => ?_
  rcases r with _ | ⟨_,fileId⟩
  · exact hkept _ w₂ (nodesKept_trans h₁ h₂)
  have hremove : Along lib i (removeFile ctx targetId fileId) (fun _ w' => w'.db.Keyed ∧
      ∀ x ∈ w.db.paths, x.type = 1 → x ∈ w'.db.paths) w₂ := by
    refine along_op fun v c done w₃ hv hx => ?_
    have h₃ := nodesKept_trans (nodesKept_trans h₁ h₂) hv.kept
    have hk₃ : w₃.db.Keyed := execute_keyed hx (h₃.keyed hk)
    have hrows : ∀ x ∈ w.db.paths, x.type = 1 → x ∈ w₃.db.paths := by
      intro x hxw ht
      rcases execute_deleteNode hx (h₃.keyed hk) (h₃.rows x hxw) with hin | ⟨hid,-⟩
      · exact hin
      · exfalso
        rcases lookup_some (hfound targetId nodeType rfl) with ⟨-,-,ht'⟩ | ⟨p,hp,-,-,hpid,hpt⟩
        · exact htype ht'
        · have hp₃ : p ∈ v.db.paths := hv.kept.rows p (h₂.rows p hp)
          have hsame := Rows.unique_inj (h₃.keyed hk).pathIds.unique (h₃.rows x hxw) hp₃
            (hid.trans hpid.symm)
          rw [hsame] at ht
          exact htype (hpt.symm.trans ht)
    cases (done : Bool) with
    | false => exact ⟨hk₃,hrows⟩
    | true =>
      refine along_kept (release_uses (fun o => o.unpruning = true) ?_ rfl (fun _ => rfl) fileId)
        fun _ w' h => ⟨h.keyed hk₃,fun x hxw ht => h.rows x (hrows x hxw ht)⟩
      intro t ht
      cases t <;> first | rfl | cases ht
  refine along_bind (Machine.wlp_mono _ ?_ hremove)
  rintro done w₃ ⟨hk₃,hx₃⟩
  cases done <;> exact hsend _ w₃ hk₃ hx₃

/-- `rmdir` takes out at most the directory its argument names, without children. -/
theorem along_rmdir (hk : w.db.Keyed) (hin : ctx.userId ≠ -1) (data : Text) :
    Along lib i (handleRmdir ctx data) (fun _ w' => w'.db.Keyed ∧
      ∀ x ∈ w.db.paths, x.type = 1 → x ∈ w'.db.paths ∨ Removes w.db ctx data x) w := by
  have hsend : ∀ msg (w₁ : World ι), w₁.db.Keyed →
      (∀ x ∈ w.db.paths, x.type = 1 → x ∈ w₁.db.paths ∨ Removes w.db ctx data x) →
      Along lib i (sendMsg msg) (fun _ w' => w'.db.Keyed ∧
        ∀ x ∈ w.db.paths, x.type = 1 → x ∈ w'.db.paths ∨ Removes w.db ctx data x) w₁ := by
    intro msg w₁ hk₁ hx₁
    refine along_kept (unpruning_sendMsg _) fun _ w' h => ⟨h.keyed hk₁,fun x hx ht => ?_⟩
    exact (hx₁ x hx ht).imp_left (h.rows x)
  have hkept : ∀ msg (w₁ : World ι), NodesKept w w₁ → Along lib i (sendMsg msg)
      (fun _ w' => w'.db.Keyed ∧
        ∀ x ∈ w.db.paths, x.type = 1 → x ∈ w'.db.paths ∨ Removes w.db ctx data x) w₁ :=
    fun msg w₁ h => hsend msg w₁ (h.keyed hk) fun x hx _ => .inl (h.rows x hx)
  unfold handleRmdir
  split
  · exact hkept _ w (nodesKept_refl w)
  refine along_strcpy (along_getNodeByPath fun r w₁ h₁ hfresh hfound => ?_)
  rcases r with _ | ⟨targetId,nodeType⟩
  · exact hkept _ w₁ h₁
  dsimp only
  split
  · exact hkept _ w₁ h₁
  rename_i htype
  refine along_bind (along_op fun v c r w₂ hv hx => ?_)
  have h₂ : NodesKept w w₂ :=
    nodesKept_trans h₁ (nodesKept_trans hv.kept (execute_nodesKept rfl hx))
  rcases (r : Option Bool) with _ | _ | _
  · exact hkept _ w₂ h₂
  · have hempty : ∀ x ∈ w.db.paths, ¬(x.userId = ctx.userId ∧ x.parentId = targetId) := by
      have hany : v.db.paths.any (fun x => x.userId = ctx.userId ∧ x.parentId = targetId) = false := by
        rcases execute_sql hx with ⟨_,db,he,rfl⟩ | ⟨_,hfail,rfl⟩
        · exact Option.some.inj (congrArg Prod.fst he)
        · cases hfail
      intro x hxw
      have hxv := hv.kept.rows x (h₁.rows x hxw)
      simpa using List.any_eq_false.mp hany x hxv
    refine along_op fun v₃ c₃ done w₃ hv₃ hx₃ => ?_
    have h₃ := nodesKept_trans h₂ hv₃.kept
    have hrows : ∀ x ∈ w.db.paths, x.type = 1 → x ∈ w₃.db.paths ∨ Removes w.db ctx data x := by
      intro x hxw ht
      rcases execute_deleteNode hx₃ (h₃.keyed hk) (h₃.rows x hxw) with hin | ⟨hid,hu⟩
      · exact .inl hin
      · rcases lookup_some (hfound targetId nodeType rfl) with ⟨-,h0,-⟩ | ⟨p,hp,-,hpath,hpid,hpt⟩
        · have hpos := hk.pathIds.positive x hxw
          omega
        · rcases hfresh p hp with hpw | h0
          · obtain rfl := Rows.unique_inj hk.pathIds.unique hxw hpw (hid.trans hpid.symm)
            exact .inr ⟨hin,hu,hpath,by rw [hid]; exact hempty⟩
          · exact absurd (hpt.symm.trans h0) htype
    cases (done : Bool) <;> exact hsend _ w₃ (execute_keyed hx₃ (h₃.keyed hk)) hrows
  · exact hkept _ w₂ h₂

end Removals

section Dispatch

variable {ι : Type} [DecidableEq ι] {lib : Library} {i : ι} {w : World ι}

/-- Any control command, whatever the transfers do meanwhile. -/
theorem along_dispatch (hk : w.db.Keyed) (ctx : ClientContext) (cmdType : CmdType) (data : Text) :
    Along lib i (dispatchControlCommand ctx cmdType data) (Walked lib w ctx cmdType data) w := by
  have hkept : ∀ {α : Type} {p : Server α}, Unpruning p →
      Along lib i (p >>= fun _ => pure ctx) (Walked lib w ctx cmdType data) w := by
    intro α p hp
    exact along_before hp fun _ w' h => ⟨h.keyed hk,fun r hr _ => .inl (h.rows r hr),.inl rfl⟩
  have hstill : ∀ {p : Server Unit}, Still p →
      Along lib i (p >>= fun _ => pure ctx) (Walked lib w ctx cmdType data) w :=
    fun hp => hkept (Program.uses_mono unpruning_still hp)
  unfold dispatchControlCommand
  split
  · exact hkept (unpruning_sendMsg _)
  rename_i hout
  cases cmdType with
  | login =>
    refine along_bind (Machine.wlp_mono _ ?_ (along_login data))
    rintro userId w' ⟨h,hid⟩
    exact ⟨h.keyed hk,fun r hr _ => .inl (h.rows r hr),.inr (.inr ⟨rfl,userId,rfl,hid⟩)⟩
  | register => exact hkept (unpruning_register data)
  | pwd => exact hkept (unpruning_sendMsg _)
  | cd =>
    refine Machine.wlp_mono _ ?_ (along_cd data)
    rintro ctx' w' ⟨h,hc⟩
    exact ⟨h.keyed hk,fun r hr _ => .inl (h.rows r hr),hc.imp_right .inl⟩
  | ls => exact hstill (still_ls ctx)
  | touch => exact hkept (unpruning_touch ctx data)
  | rm =>
    refine along_bind (Machine.wlp_mono _ ?_ (along_rm hk data))
    rintro _ w' ⟨hk',hrows⟩
    exact ⟨hk',fun r hr ht => .inl (hrows r hr ht),.inl rfl⟩
  | mkdir => exact hkept (unpruning_mkdir ctx data)
  | rmdir =>
    have hin : ctx.userId ≠ -1 := fun h => hout ⟨h,by decide,by decide⟩
    refine along_bind (Machine.wlp_mono _ ?_ (along_rmdir hk hin data))
    rintro _ w' ⟨hk',hrows⟩
    exact ⟨hk',fun r hr ht => (hrows r hr ht).imp_right fun h => ⟨rfl,h⟩,.inl rfl⟩
  | gets => exact hstill (still_plan ctx data)
  | getsRange => exact hstill (still_rangeTicket ctx data)
  | puts => exact hstill (still_transferTicket ctx .puts data)
  | invalid | reply => exact hkept (unpruning_sendMsg _)

end Dispatch

/-- The request lets no other user into a session that is away from the root, and
takes out no directory that a session is in. -/
def Round.SparesSeats {ι C : Type} (lib : Library) (s : Site ι) (e : Round C) : Prop :=
  match e.request with
  | .command k .login data =>
    (s.sessions k).userId = -1 ∨
      ((s.sessions k).currentPath = "/".toList ∧ (s.sessions k).currentDirId = 0) ∨
      ∀ row, AdmittedAs lib s.world.db data row → (row.id : ℤ) = (s.sessions k).userId
  | .command k .rmdir data => ∀ r ∈ s.world.db.paths, Removes s.world.db (s.sessions k) data r →
      ∀ j, (s.sessions j).userId = (s.sessions k).userId → (s.sessions j).currentDirId ≠ r.id
  | _ => True

/-- The values of a statement hold no quote and no backslash. -/
def Op.Unquoted : Op → Prop
  | .sql t => ∀ u ∈ t.query.values, unquoted u = true
  | _ => True

/-- Such a request, without quotes and backslashes in it and in what the transfers
do meanwhile. -/
structure Round.Considerate {ι : Type} (lib : Library) (s : Site ι)
    (e : Round (List (ι × Op × Choice) × Choice)) : Prop where
  unquoted : e.request.Unquoted
  others : ∀ c ∈ e.outcomes, ∀ act ∈ c.1, act.2.1.Unquoted
  spares : e.SparesSeats lib s

section Steps

variable {ι : Type} [DecidableEq ι] {lib : Library} {i : ι} {s s' : Site ι}
  {e : Round (List (ι × Op × Choice) × Choice)}

omit [DecidableEq ι] in
theorem seated_walked {k j : ℕ} {cmdType : CmdType} {data : Text} {ctx : ClientContext} {w : World ι}
    (he : e.request = .command k cmdType data) (hc : e.SparesSeats lib s)
    (h : Walked lib s.world (s.sessions k) cmdType data ctx w)
    (hs : Seated s.world.db (s.sessions j)) : Seated w.db (s.sessions j) := by
  intro hin
  rcases hs hin with hroot | ⟨r,hr,hid,hu,ht,hp⟩
  · exact .inl hroot
  · rcases h.dirs r hr ht with hkept | ⟨rfl,hgone⟩
    · exact .inr ⟨r,hkept,hid,hu,ht,hp⟩
    · unfold Round.SparesSeats at hc
      rw [he] at hc
      exact absurd hid.symm (hc r hr hgone j (hu.symm.trans hgone.2.1))

omit [DecidableEq ι] in
theorem seated_login {k : ℕ} {data : Text} {userId : ℤ} {w : World ι}
    (he : e.request = .command k .login data) (hc : e.SparesSeats lib s)
    (hid : userId = -1 ∨ ∃ row, AdmittedAs lib s.world.db data row ∧ userId = row.id)
    (hs : Seated w.db (s.sessions k)) : Seated w.db (loginContext (s.sessions k) userId) := by
  unfold loginContext
  split
  · exact fun _ => .inl ⟨rfl,rfl⟩
  rename_i hnew
  intro hin
  have huser : (s.sessions k).userId ≠ -1 := fun h => hnew ⟨h,hin⟩
  rcases hid with hnone | ⟨row,hrow,rfl⟩
  · exact absurd hnone hin
  unfold Round.SparesSeats at hc
  rw [he] at hc
  rcases hc with hout | hroot | hsame
  · exact absurd hout huser
  · exact .inl hroot
  · have hid := hsame row hrow
    rcases hs huser with hroot | ⟨r,hr,hd,hu,ht,hp⟩
    · exact .inl hroot
    · exact .inr ⟨r,hr,hd,hu.trans hid.symm,ht,hp⟩

theorem seats_step (hk : s.world.db.Keyed) (hs : ∀ k, Seated s.world.db (s.sessions k))
    (hc : e.SparesSeats lib s) (hx : s.step (busyServer ι lib i) i e = some s') :
    s'.world.db.Keyed ∧ ∀ k, Seated s'.world.db (s'.sessions k) := by
  cases he : e.request with
  | connect k =>
    obtain rfl := step_connect he hx
    refine ⟨hk,fun j => ?_⟩
    by_cases hj : j = k
    · subst hj
      simp only [update_self]
      exact fun hin => absurd rfl hin
    · simp only [update_of_ne hj]
      exact hs j
  | command k cmdType data =>
    obtain ⟨ctx,w,hrun,rfl⟩ := step_command he hx
    have h := Machine.exec_wlp (Machine.run_exec hrun)
      (along_dispatch hk (s.sessions k) cmdType data)
    have hstay : ∀ j, Seated w.db (s.sessions j) := fun j => seated_walked he hc h (hs j)
    refine ⟨h.keyed,fun j => ?_⟩
    by_cases hj : j = k
    · subst hj
      simp only [update_self]
      rcases h.session with rfl | hseat | ⟨rfl,userId,rfl,hid⟩
      · exact hstay j
      · exact hseat
      · exact seated_login he hc hid (hstay j)
    · simp only [update_of_ne hj]
      exact hstay j
  | upload userId fullPath peer =>
    obtain ⟨w,hrun,rfl⟩ := step_upload he hx
    have hup : Along lib i (serveUpload userId fullPath)
        (fun _ w' => NodesKept (s.world.meet i peer) w') (s.world.meet i peer) :=
      along_kept
        (serveUpload_uses unpruning_tableless unpruning_enters (fun _ _ => rfl)
          (fun _ _ _ _ => rfl) userId fullPath)
        fun _ _ h => h
    have h := Machine.exec_wlp (Machine.run_exec hrun) hup
    exact ⟨h.keyed hk,fun j => seated_kept h.rows (hs j)⟩

end Steps

namespace Wandering

def start : Site Unit where
  world := { LongName.world with db := Db.empty.addUser "a".toList "01".toList "s".toList }
  sessions := fun _ => newSession

abbrev Undisturbed : Type := List (Unit × Op × Choice) × Choice

def fine (n : ℕ) : List Undisturbed := List.replicate n ([],.ok)

def rounds : List (Round Undisturbed) :=
  [⟨.command 0 .login "a/b".toList,fine 2 ++ [([],.value 0)] ++ fine 2⟩,
    ⟨.command 0 .mkdir "d".toList,fine 3⟩,⟨.command 0 .cd "d".toList,fine 2⟩]

def removal : Round Undisturbed := ⟨.command 0 .rmdir "/d".toList,fine 4⟩

def observe (s : Site Unit) : ClientContext × List PathRow := (s.sessions 0,s.world.db.paths)

theorem keyed : start.world.db.Keyed :=
  keyed_addUser empty_keyed (by simp [Db.empty])

/-- Without quotes: logins of sessions without a user, and no `rmdir`. -/
def cautious (s : Site Unit) (e : Round Undisturbed) : Bool :=
  decide e.request.Unquoted && e.outcomes.all (fun c => c.1.isEmpty) && match e.request with
    | .command k .login _ => decide ((s.sessions k).userId = -1)
    | .command _ .rmdir _ => false
    | _ => true

theorem cautious_considerate (s : Site Unit) (e : Round Undisturbed) (h : cautious s e = true) :
    e.Considerate LongName.lib s := by
  obtain ⟨request,outcomes⟩ := e
  obtain ⟨hplain,hspares⟩ := Bool.and_eq_true_iff.mp h
  obtain ⟨hunquoted,halone⟩ := Bool.and_eq_true_iff.mp hplain
  refine ⟨of_decide_eq_true hunquoted,fun c hc act hact => ?_,?_⟩
  · have hnone : c.1 = [] := List.isEmpty_iff.mp (List.all_eq_true.mp halone c hc)
    rw [hnone] at hact
    cases hact
  cases request with
  | connect k => trivial
  | upload userId fullPath peer => trivial
  | command k cmdType data =>
    cases cmdType with
    | login => exact .inl (of_decide_eq_true hspares)
    | rmdir => cases hspares
    | _ => trivial

end Wandering

end WindCloud
