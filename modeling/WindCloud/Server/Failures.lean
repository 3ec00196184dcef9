import WindCloud.Server.Counts
import WindCloud.Server.TransferUsage

/-!
# One statement fails

The executions of a function in which one statement fails and no other. The
statement is named by its number among the statements of the execution; it
leaves the tables alone and its caller goes on with the reply of a failure.
-/

set_option autoImplicit false

namespace WindCloud
open CString Effect Function

/-- The function whose statement number `n` fails. It also returns that statement. -/
def failing {α : Type} : Server α → ℕ → Server (Option Statement × α)
  | .ret a, _ => .ret (none,a)
  | .op o k, n =>
    match o, k, n with
    | .sql t, k, 0 => k t.failed >>= fun a => .ret (some t,a)
    | .sql t, k, n+1 => .op (.sql t) fun r => failing (k r) n
    | o, k, n => .op o fun r => failing (k r) n

namespace Db

/-- What `dao_file_find_by_sha256` finds. -/
def known (db : Db) (h : Text) : Option (ℕ × ℤ) := ((Statement.fileBySha256 h).exec db).1

def admits (db : Db) (h : Text) (size : ℤ) : Bool := ((Statement.insertFile h size).exec db).1

/-- The tables after an insertion that holds. -/
def entered (db : Db) (h : Text) (size : ℤ) : Db := ((Statement.insertFile h size).exec db).2

end Db

/-- Rows of nodes, of files and of sources are the same. -/
structure SameRows (db db' : Db) : Prop where
  paths : db'.paths = db.paths
  files : db'.files = db.files
  fileSources : db'.fileSources = db.fileSources

section Definitions

variable {ι : Type}

/-- The command packets that the caller's peer was sent. -/
def World.told (w : World ι) (i : ι) : List Packet :=
  (w.node.conn i).sent.filter fun p => p.kind = .command

end Definitions

section Hushed

attribute [local simp] execute

variable {ι : Type} [DecidableEq ι] {lib : Library} {i : ι} {w w' w₁ : World ι} {c : Choice}

/-- The tables, what the peer was told and the own address are as they were. -/
structure Hushed (i : ι) (w w' : World ι) : Prop where
  db : w'.db = w.db
  told : w'.told i = w.told i
  address : w'.node.address = w.node.address

omit [DecidableEq ι] in
theorem hushed_refl (w : World ι) : Hushed i w w := ⟨rfl,rfl,rfl⟩

omit [DecidableEq ι] in
theorem hushed_trans (h : Hushed i w w₁) (h' : Hushed i w₁ w') : Hushed i w w' :=
  ⟨h'.db.trans h.db,h'.told.trans h.told,h'.address.trans h.address⟩

omit [DecidableEq ι] in
theorem told_same (h : (w'.node.conn i).sent = (w.node.conn i).sent) : w'.told i = w.told i := by
  unfold World.told
  rw [h]

theorem execute_address {o : Op} {r : o.Res} (h : execute lib o i w c = some (r,w')) :
    w'.node.address = w.node.address := by
  by_cases hq : o.quiet = true
  · rw [execute_quiet hq h]
  cases o <;> simp only [Op.quiet,not_true] at hq
  case sql t => rcases execute_sql h with ⟨_,db,_,rfl⟩ | ⟨_,_,rfl⟩ <;> rfl
  case openUpload path => rcases execute_openUpload h with ⟨_,rfl⟩ | ⟨_,rfl⟩ <;> rfl
  case openEmpty path => rcases execute_openEmpty h with ⟨_,rfl⟩ | ⟨_,rfl⟩ <;> rfl
  case openRead path => rcases execute_openRead h with ⟨n,_,_,rfl⟩ | ⟨_,rfl⟩ <;> rfl
  case ftruncate size =>
    rcases execute_ftruncate h with ⟨d,_,_,_,_,rfl⟩ | ⟨_,_,_,rfl⟩ | ⟨_,_,rfl⟩ <;> rfl
  case lseek pos =>
    rcases execute_lseek h with ⟨d,_,_,_,_,rfl⟩ | ⟨_,_,_,rfl⟩ | ⟨_,_,rfl⟩ <;> rfl
  case write buf => rcases execute_write h with ⟨d,_,_,_,rfl⟩ | ⟨_,_,rfl⟩ <;> rfl
  case recvMapped pos once =>
    rcases execute_recvMapped h with ⟨d,_,_,_,_,rfl⟩ | ⟨_,_,rfl⟩ <;> rfl
  case close =>
    rw [execute_close h]
    rfl
  case unlink path => rcases execute_unlink h with ⟨_,rfl⟩ | ⟨_,rfl⟩ <;> rfl
  case recv once => rcases execute_recv h with ⟨n,_,_,_,_,rfl⟩ | ⟨_,_,rfl⟩ <;> rfl
  case send p => rcases execute_send h with ⟨_,_,rfl⟩ | ⟨_,_,rfl⟩ <;> rfl
  case randBytes count => cases c <;> simp at h <;> grind
  case jwtEncode p => cases c <;> simp at h <;> grind
  case ticketRegister now id =>
    cases c <;> simp at h
    obtain ⟨_,rfl⟩ := h
    rfl
  case ticketConsume now id =>
    cases c <;> simp at h
    obtain ⟨_,rfl⟩ := h
    rfl
  case overflow => exact r.elim

theorem deliver_told {p : Packet} :
    (w.setNode (w.node.deliver i p)).told i =
      if p.kind = .command then w.told i ++ [p] else w.told i := by
  by_cases hp : p.kind = .command <;>
    simp [World.told,Node.deliver,Node.setConn,List.filter_append,hp]

theorem execute_hushed {o : Op} {r : o.Res} (ho : o.hushed = true)
    (h : execute lib o i w c = some (r,w')) : Hushed i w w' where
  db := execute_db (by cases o <;> first | rfl | cases ho) h
  address := execute_address h
  told := by
    by_cases hu : o.unticketed = true
    · exact told_same ((execute_unticketed hu h).2.2.2 i)
    cases o <;> simp only [Op.unticketed,not_true] at hu
    case send p =>
      rcases execute_send h with ⟨_,_,rfl⟩ | ⟨_,_,rfl⟩
      · rw [deliver_told]
        cases p <;> first | rfl | cases ho
      · rfl
    case time =>
      cases c <;> simp at h
      exact told_same (by rw [h.2])
    case randBytes count => cases c <;> simp at h <;> exact told_same (by grind)
    case jwtEncode p => cases c <;> simp at h <;> exact told_same (by grind)
    case ticketRegister now id =>
      cases c <;> simp at h
      obtain ⟨_,rfl⟩ := h
      rfl
    case ticketConsume now id =>
      cases c <;> simp at h
      obtain ⟨_,rfl⟩ := h
      rfl

end Hushed

section Rules

variable {ι : Type} [DecidableEq ι] {lib : Library} {ok : Op → World ι → Choice → Prop} {i : ι}
  {α β : Type} {n : ℕ} {w : World ι}

/-- Weakest precondition of the executions whose statement number `n` fails. -/
abbrev Faulted (lib : Library) (ok : Op → World ι → Choice → Prop) (i : ι) (p : Server α) (n : ℕ)
    (Q : Statement → α → World ι → Prop) (w : World ι) : Prop :=
  Solo lib ok i (failing p n) (fun r w' => ∀ F, r.1 = some F → Q F r.2 w') w

omit [DecidableEq ι] in
/-- Such an execution is one of the function itself, in which that statement fails. -/
theorem failing_exec {m : Machine Op Op.Res ι (World ι) Choice} {p : Server α} {w' : World ι}
    {cs : List Choice} {F : Statement} {a : α}
    (hm : ∀ t v, m.exec (.sql t) i v .fault = some (t.failed,v))
    (h : m.Exec ok i (failing p n) w cs (some F,a) w') :
    ∃ cs', m.Exec (fun o v c => ok o v c ∨ o = .sql F ∧ c = .fault) i p w cs' a w' := by
  induction p generalizing n w cs with
  | ret b => cases h
  | op o k ih =>
    have hlater : ∀ {l} {cs : List Choice}, m.Exec ok i
        (.op o fun r => failing (k r) l) w cs (some F,a) w' → ∃ cs', m.Exec
          (fun o v c => ok o v c ∨ o = .sql F ∧ c = .fault) i (.op o k) w cs' a w' := by
      intro l cs h
      cases h with
      | op hc hx hrest =>
        obtain ⟨cs',hrun⟩ := ih _ hrest
        exact ⟨_,.op (.inl hc) hx hrun⟩
    cases o with
    | sql t =>
      cases n with
      | zero =>
        obtain ⟨b,hrun,he⟩ := Machine.exec_map h
        obtain ⟨ht,rfl⟩ := Prod.mk.inj he
        obtain rfl := Option.some.inj ht
        exact ⟨_,.op (.inr ⟨rfl,rfl⟩) (hm t w) (Machine.exec_mono (fun _ _ _ => .inl) hrun)⟩
      | succ l => exact hlater h
    | _ => exact hlater h

theorem hushed_isSql (o : Op) (ho : o.hushed = true) : o.isSql = false := by
  cases o <;> first | rfl | cases ho

theorem failing_before {p : Server α} (hp : p.Uses fun o => o.isSql = false) (f : α → Server β)
    (n : ℕ) : failing (p >>= f) n = p >>= fun a => failing (f a) n := by
  induction p with
  | ret a => rfl
  | op o k ih =>
    have ho : o.isSql = false := hp.1
    have hk : ∀ r, failing (k r >>= f) n = k r >>= fun a => failing (f a) n :=
      fun r => ih r (hp.2 r)
    cases o <;> first | exact congrArg (Program.op _) (funext hk) | cases ho

theorem solo_hushed {p : Server α} {Q : α → World ι → Prop} (hp : Hush p)
    (hQ : ∀ a w', Hushed i w w' → Q a w') : Solo lib ok i p Q w := by
  have h : Solo lib ok i p (fun _ w' => Hushed i w w') w :=
    Machine.wlp_uses (fun o v c r v' ho hv hx => hushed_trans hv (execute_hushed ho hx)) hp
      (hushed_refl w)
  exact Machine.wlp_mono _ hQ h

theorem solo_after {p : Server α} {f : α → Server β} {Q : β → World ι → Prop} (hp : Hush p)
    (hf : ∀ a w', Hushed i w w' → Solo lib ok i (f a) Q w') : Solo lib ok i (p >>= f) Q w :=
  solo_bind (solo_hushed hp hf)

theorem faulted_after {p : Server α} {f : α → Server β} {Q : Statement → β → World ι → Prop}
    (hp : Hush p) (hf : ∀ a w', Hushed i w w' → Faulted lib ok i (f a) n Q w') :
    Faulted lib ok i (p >>= f) n Q w := by
  unfold Faulted
  rw [failing_before (Program.uses_mono hushed_isSql hp)]
  exact solo_after hp hf

theorem faulted_mono {p : Server α} {Q Q' : Statement → α → World ι → Prop}
    (hq : ∀ F a w', Q F a w' → Q' F a w') (h : Faulted lib ok i p n Q w) :
    Faulted lib ok i p n Q' w :=
  Machine.wlp_mono _ (fun r w' hr F hF => hq F r.2 w' (hr F hF)) h

theorem faulted_never {p : Server α} {Q : Statement → α → World ι → Prop}
    (hp : p.Uses fun o => o.isSql = false) : Faulted lib ok i p n Q w := by
  have h : failing p n = p >>= fun a => .ret (none,a) := by
    have hret := failing_before hp Program.ret n
    rw [Program.bind_ret] at hret
    exact hret
  unfold Faulted
  rw [h]
  refine solo_bind (Machine.wlp_mono _ ?_ (Machine.wlp_true p w))
  exact fun a w' _ F hF => absurd hF.symm (Option.some_ne_none F)

theorem faulted_sql (hok : StatementsHold ok) {t : Statement} {f : t.Res → Server β}
    {Q : Statement → β → World ι → Prop} (hfail : n = 0 → Solo lib ok i (f t.failed) (Q t) w)
    (hold : ∀ m, n = m+1 →
      Faulted lib ok i (f (t.exec w.db).1) m Q { w with db := (t.exec w.db).2 }) :
    Faulted lib ok i (sql t >>= f) n Q w := by
  cases n with
  | zero =>
    refine solo_bind (Machine.wlp_mono _ ?_ (hfail rfl))
    intro a w' hQ F hF
    obtain rfl := Option.some.inj hF
    exact hQ
  | succ m => exact solo_sql hok (hold m rfl)

theorem faulted_then {p : Server α} {f : α → Server β} {Q : Statement → β → World ι → Prop}
    (hf : ∀ a, (f a).Uses fun o => o.isSql = false)
    (hp : Faulted lib ok i p n (fun F a w' => Solo lib ok i (f a) (Q F) w') w) :
    Faulted lib ok i (p >>= f) n Q w := by
  induction p generalizing n w with
  | ret a => exact faulted_never (hf a)
  | op o k ih =>
    cases o with
    | sql t =>
      cases n with
      | zero =>
        have hk := (Machine.wlp_bind (k t.failed) _ _ w).mp hp
        have hgoal : Solo lib ok i ((k t.failed >>= f) >>= fun b => .ret (some t,b))
            (fun r w' => ∀ F, r.1 = some F → Q F r.2 w') w := by
          refine solo_bind (solo_bind (Machine.wlp_mono _ ?_ hk))
          intro a w' ha
          refine Machine.wlp_mono _ ?_ (ha t rfl)
          intro b w'' hb F hF
          obtain rfl := Option.some.inj hF
          exact hb
        exact hgoal
      | succ m => exact fun c r w' hc hx => ih r (hp c r w' hc hx)
    | _ => exact fun c r w' hc hx => ih r (hp c r w' hc hx)

theorem solo_statement (hok : StatementsHold ok) {t : Statement} {Q : t.Res → World ι → Prop}
    (h : Q (t.exec w.db).1 { w with db := (t.exec w.db).2 }) : Solo lib ok i (sql t) Q w := by
  have hret : Solo lib ok i (sql t >>= Program.ret) Q w := solo_sql hok h
  rw [Program.bind_ret] at hret
  exact hret

theorem faulted_statement (hok : StatementsHold ok) {t : Statement}
    {Q : Statement → t.Res → World ι → Prop} (h : n = 0 → Q t t.failed w) :
    Faulted lib ok i (sql t) n Q w := by
  have hret : Faulted lib ok i (sql t >>= Program.ret) n Q w :=
    faulted_sql hok h fun m _ => faulted_never trivial
  rw [Program.bind_ret] at hret
  exact hret

theorem faulted_strcpy {size : ℕ} {t : Text} {f : Text → Server β}
    {Q : Statement → β → World ι → Prop} (h : Faulted lib ok i (f t) n Q w) :
    Faulted lib ok i (strcpy size t >>= f) n Q w := by
  unfold strcpy
  split
  · exact h
  · exact fun c r w' _ hx => r.elim

end Rules

/-- The texts of `rm`, `touch` and `puts` that report success. -/
def successes : List Packet :=
  [initCommandPacket .reply "文件删除成功".toList,initCommandPacket .reply "创建文件成功".toList,
    initCommandPacket .reply "上传完成！".toList]

section Replies

variable {ι : Type} [DecidableEq ι] {lib : Library} {ok : Op → World ι → Choice → Prop} {i : ι}
  {w₀ w v : World ι} {good : Db → Packet → Prop}

/-- `good` holds of the tables and each text of failure the peer was told. -/
def Judged (i : ι) (w₀ : World ι) (good : Db → Packet → Prop) (w' : World ι) : Prop :=
  ∀ l, w'.told i = w₀.told i ++ l → ∀ p ∈ l, p ∉ successes → good w'.db p

omit [DecidableEq ι] in
theorem judged_untold (h : w.told i = w₀.told i) : Judged i w₀ good w := by
  intro l hl p hp
  have hnil : l = [] := List.append_right_eq_self.mp (hl.symm.trans h)
  rw [hnil] at hp
  cases hp

omit [DecidableEq ι] in
theorem judged_told {p : Packet} (h : w.told i = w₀.told i ++ [p])
    (hgood : p ∉ successes → good w.db p) : Judged i w₀ good w := by
  intro l hl q hq hfail
  obtain rfl : [p] = l := List.append_cancel_left (h.symm.trans hl)
  obtain rfl := List.mem_singleton.mp hq
  exact hgood hfail

theorem solo_told {msg : Text} (ht : w.told i = w₀.told i)
    (hgood : initCommandPacket .reply msg ∉ successes →
      good w.db (initCommandPacket .reply msg)) :
    Solo lib ok i (sendMsg msg) (fun _ w' => Judged i w₀ good w') w := by
  intro c r w' _ hx
  rcases execute_send hx with ⟨_,_,rfl⟩ | ⟨_,_,rfl⟩
  · refine judged_told ?_ hgood
    have hkind : (initCommandPacket .reply msg).kind = .command := rfl
    rw [deliver_told,if_pos hkind,ht]
  · exact judged_untold ht

theorem solo_told_close {msg : Text} (ht : w.told i = w₀.told i)
    (hgood : initCommandPacket .reply msg ∉ successes →
      good w.db (initCommandPacket .reply msg)) :
    Solo lib ok i (sendMsg msg >>= fun _ => close) (fun _ w' => Judged i w₀ good w') w := by
  refine solo_bind (Machine.wlp_mono _ ?_ (solo_told ht hgood))
  intro _ v hv
  refine solo_hushed ⟨rfl,fun _ => trivial⟩ fun _ w' h l hl p hp hfail => ?_
  rw [h.db]
  exact hv l (h.told.symm.trans hl) p hp hfail

end Replies

section Rows

variable {db db' db₁ : Db}

theorem sameRows_refl (db : Db) : SameRows db db := ⟨rfl,rfl,rfl⟩

theorem sameRows_paths (h : db'.paths.length ≠ db.paths.length) : ¬SameRows db db' :=
  fun hs => h (congrArg List.length hs.paths)

theorem sameRows_files (h : db'.files.length ≠ db.files.length) : ¬SameRows db db' :=
  fun hs => h (congrArg List.length hs.files)

theorem sameRows_dropNew (hk : db.Keyed) (bs : List ℕ) (size : ℤ) :
    SameRows db ((db.addFile bs size).dropFile db.nextFile) where
  paths := rfl
  fileSources := rfl
  files := by
    simp only [Db.dropFile,Db.addFile,List.filter_append]
    have hold : db.files.filter (fun r => decide (r.id ≠ db.nextFile)) = db.files := by
      refine List.filter_eq_self.mpr fun r hr => decide_eq_true ?_
      have hlt := hk.fileIds.below r hr
      omega
    rw [hold]
    simp

theorem dropPath_fewer {userId : ℤ} {r : PathRow} (hr : r ∈ db.paths) (hu : r.userId = userId) :
    (db.dropPath userId r.id).paths.length < db.paths.length :=
  List.length_filter_lt_length_iff_exists.mpr ⟨r,hr,by simp [hu]⟩

end Rows

/-- The statements of `release_file_entity_if_unused` that decide its result. -/
def Statement.deciding : Statement → Bool
  | fileInfoById _ | subRefCount _ | refCount _ | deleteFile _ => true
  | _ => false

section Removal

variable {ι : Type} [DecidableEq ι] {lib : Library} {ok : Op → World ι → Choice → Prop} {i : ι}
  {w₀ w : World ι} {n : ℕ} {ctx : ClientContext} {arg : Text}

theorem faulted_getFileInfo {β : Type} (hok : StatementsHold ok) {userId : ℤ} {path : Text}
    {f : Option (ℕ × ℕ) → Server β} {Q : Statement → β → World ι → Prop}
    (hfail : Solo lib ok i (f none) (Q (.fileInfoByPath userId path)) w)
    (hold : ∀ m r, Faulted lib ok i (f r) m Q w) :
    Faulted lib ok i (daoGetFileInfoByPath userId path >>= f) n Q w := by
  unfold daoGetFileInfoByPath
  rw [bind_assoc]
  refine faulted_sql hok (fun _ => hfail) fun m _ => ?_
  rcases ((Statement.fileInfoByPath userId path).exec w.db).1 with _ | ⟨id,_ | f,type⟩
  · exact hold m none
  · exact hold m none
  · dsimp only
    split <;> exact hold m _

/-- What a release leaves when one of its statements fails: the nodes are kept, and
it fails itself, unless the statement is the one for the sources. -/
def Released (i : ι) (w : World ι) (F : Statement) (done : Bool) (w' : World ι) : Prop :=
  w'.told i = w.told i ∧ w'.db.paths = w.db.paths ∧ (done = false → F.deciding = true)

theorem faulted_dropFile (hok : StatementsHold ok) (fileId : ℕ) (ht : w.told i = w₀.told i)
    (hp : w.db.paths = w₀.db.paths) :
    Faulted lib ok i (daoFileSourceDeleteByFileId fileId >>= fun _ => daoFileDelete fileId) n
      (Released i w₀) w := by
  have hdelete : ∀ (v : World ι) m, v.told i = w₀.told i → v.db.paths = w₀.db.paths →
      Faulted lib ok i (daoFileDelete fileId) m (Released i w₀) v :=
    fun v m hv hvp => faulted_statement hok fun _ => ⟨hv,hvp,fun _ => rfl⟩
  unfold daoFileSourceDeleteByFileId
  split
  · exact hdelete w n ht hp
  · refine faulted_sql hok (fun _ => ?_) fun m _ => hdelete _ m ht hp
    exact solo_statement hok ⟨ht,hp,fun hd => Bool.noConfusion hd⟩

theorem faulted_release (hok : StatementsHold ok) (fileId : ℕ) (w : World ι) :
    Faulted lib ok i (releaseFileEntityIfUnused fileId) n (Released i w) w := by
  have hunused : ∀ (v : World ι) (h : Text) m, v.told i = w.told i → v.db.paths = w.db.paths →
      Faulted lib ok i (unlinkStoreFile h >>= fun _ =>
        daoFileSourceDeleteByFileId fileId >>= fun _ => daoFileDelete fileId) m
        (Released i w) v := by
    intro v h m hv hvp
    refine faulted_after (unlinkStoreFile_uses (fun o => o.hushed = true) rfl (fun _ => rfl) h)
      fun _ v' h' => ?_
    exact faulted_dropFile hok fileId (h'.told.trans hv) (by rw [h'.db,hvp])
  refine faulted_sql hok (fun _ => ⟨rfl,rfl,fun _ => rfl⟩) fun m _ => ?_
  simp only [Statement.exec]
  cases w.db.fileWithId fileId with
  | none => exact faulted_never trivial
  | some r =>
    refine faulted_sql hok (fun _ => ⟨rfl,rfl,fun _ => rfl⟩) fun m _ => ?_
    refine faulted_sql hok (fun _ => ⟨rfl,rfl,fun _ => rfl⟩) fun m _ => ?_
    rcases (Statement.exec _ _).1 with _ | refCount
    · exact faulted_never trivial
    · dsimp only
      split
      · exact faulted_never trivial
      · exact hunused _ _ m rfl rfl

theorem faulted_removeFile (hok : StatementsHold ok) {r : PathRow} (hr : r ∈ w.db.paths)
    (hu : r.userId = ctx.userId) (fileId : ℕ) :
    Faulted lib ok i (removeFile ctx r.id fileId) n (fun F done w' => w'.told i = w.told i ∧
      (done = false → (SameRows w.db w'.db ↔ F.deciding = false))) w := by
  refine faulted_sql hok (fun _ => ⟨rfl,fun _ => iff_of_true (sameRows_refl _) rfl⟩) fun m _ => ?_
  refine faulted_mono ?_ (faulted_release hok fileId _)
  rintro F done w' ⟨ht,hp,hdone⟩
  refine ⟨ht,fun hd => iff_of_false (sameRows_paths ?_) (by simp [hdone hd])⟩
  have hfewer := dropPath_fewer hr hu
  rw [hp]
  exact hfewer.ne

/-- After a failure `rm` leaves the tables as they were, unless its release of
the file fails. -/
theorem faulted_rm (hok : StatementsHold ok) (w : World ι) (ctx : ClientContext) (arg : Text) :
    Faulted lib ok i (handleRm ctx arg) n (fun F _ w' => Judged i w
      (fun db' _ => SameRows w.db db' ↔ F.deciding = false) w') w := by
  have hreply : ∀ msg, (sendMsg msg).Uses fun o => o.isSql = false :=
    fun _ => ⟨rfl,fun _ => trivial⟩
  have hsame : ∀ {msg} {F : Statement} {w₁ : World ι}, F.deciding = false → Hushed i w w₁ →
      Solo lib ok i (sendMsg msg) (fun _ w' => Judged i w
        (fun db' _ => SameRows w.db db' ↔ F.deciding = false) w') w₁ := by
    intro msg F w₁ hF h₁
    refine solo_told h₁.told fun _ => iff_of_true ?_ hF
    rw [h₁.db]
    exact sameRows_refl _
  unfold handleRm
  split
  · exact faulted_never (hreply _)
  refine faulted_strcpy ?_
  unfold daoGetNodeByPath
  split
  · exact faulted_never (hreply _)
  refine faulted_sql hok (fun _ => hsame rfl (hushed_refl w)) fun m _ => ?_
  simp only [Statement.exec]
  cases hnode : w.db.nodeAt ctx.userId (absPath ctx.currentPath arg) with
  | none => exact faulted_never (hreply _)
  | some r =>
    obtain ⟨hr,hu,-⟩ := nodeAt_some hnode
    dsimp only [Option.map]
    split
    · exact faulted_never (hreply _)
    refine faulted_getFileInfo hok (hsame rfl (hushed_refl w)) fun m e => ?_
    rcases e with _ | ⟨_,fileId⟩
    · exact faulted_never (hreply _)
    refine faulted_then ?_ (faulted_mono ?_ (faulted_removeFile hok hr hu fileId))
    · intro done
      cases done <;> exact hreply _
    · rintro F done w' ⟨ht,hrows⟩
      cases done with
      | false => exact solo_told ht fun _ => hrows rfl
      | true => exact solo_told ht fun hs => absurd (by decide) hs

end Removal

/-- The statement that counts a reference. -/
def Statement.counting : Statement → Bool
  | addRefCount _ => true
  | _ => false

section Hashes

variable {db : Db} {h : Text} {size : ℤ}

theorem known_eq {bs : List ℕ} (hb : Hex.unhex h = some bs) (db : Db) :
    db.known h = (db.fileOf bs).map fun r => (r.id,r.size) := by
  unfold Db.known
  simp only [Statement.exec,hb]

theorem known_hex {e : ℕ × ℤ} (hf : db.known h = some e) : ∃ bs, Hex.unhex h = some bs := by
  unfold Db.known at hf
  simp only [Statement.exec] at hf
  split at hf
  · cases hf
  · rename_i bs hb
    exact ⟨bs,hb⟩

/-- An insertion that is accepted enters one row, which a search for the hash finds
or finds not at all. -/
theorem admits_enters (ha : db.admits h size = true) :
    ∃ cell, db.fileOf cell = none ∧ db.entered h size = db.addFile cell size ∧
      (db.known h = none → ∀ e, (db.entered h size).known h = some e → e.1 = db.nextFile) := by
  unfold Db.admits at ha
  simp only [Statement.exec] at ha
  split at ha
  · cases ha
  rename_i bs hb
  split at ha
  · cases ha
  rename_i hfree
  have henter : db.entered h size = db.addFile (bs ++ List.replicate (32-bs.length) 0) size := by
    unfold Db.entered
    simp only [Statement.exec,hb]
    exact congrArg Prod.snd (if_neg hfree)
  refine ⟨_,Option.not_isSome_iff_eq_none.mp fun hs => hfree (.inr hs),henter,fun hold e he => ?_⟩
  rw [known_eq hb] at hold he
  obtain ⟨r,hr,rfl⟩ := Option.map_eq_some_iff.mp he
  have hnone : db.files.find? (fun r => decide (r.sha256sum = bs)) = none :=
    Option.map_eq_none_iff.mp hold
  rw [henter,Db.fileOf,addFile_files,List.find?_append,hnone,Option.none_or] at hr
  obtain rfl := List.mem_singleton.mp (List.mem_of_find?_eq_some hr)
  rfl

theorem known_refused (hk : db.Keyed) {e : ℕ × ℤ} (hf : db.known h = some e) (size : ℤ) :
    db.admits h size = false ∧ e.1 ≠ 0 := by
  obtain ⟨bs,hb⟩ := known_hex hf
  rw [known_eq hb] at hf
  obtain ⟨r,hr,rfl⟩ := Option.map_eq_some_iff.mp hf
  obtain ⟨hmem,rfl⟩ := fileOf_some hr
  have hlen := (hk.cells r hmem).1
  have hpad : r.sha256sum ++ List.replicate (32-r.sha256sum.length) 0 = r.sha256sum := by
    rw [hlen]
    exact List.append_nil _
  have hpos := hk.fileIds.positive r hmem
  refine ⟨?_,by dsimp only; omega⟩
  unfold Db.admits
  simp only [Statement.exec,hb]
  rw [hpad,if_pos (.inr (by rw [hr]; rfl))]

theorem emptyFile_entered (hn : db.known emptyFileSha256 = none) (size : ℤ) :
    db.admits emptyFileSha256 size = true ∧
      db.entered emptyFileSha256 size = db.addFile emptyFileBytes size ∧
      (db.addFile emptyFileBytes size).known emptyFileSha256 = some (db.nextFile,size) := by
  obtain ⟨bs,hb,-,he⟩ := Statement.exec_insertFile emptyFile_hash db size
  obtain rfl : emptyFileBytes = bs := Option.some.inj (emptyFile_unhex.symm.trans hb)
  rw [known_eq emptyFile_unhex] at hn
  have hnone := Option.map_eq_none_iff.mp hn
  rw [hnone] at he
  unfold Db.admits Db.entered
  rw [he]
  refine ⟨rfl,rfl,?_⟩
  rw [known_eq emptyFile_unhex,fileOf_append hnone]
  rfl

theorem entered_longer (ha : db.admits h size = true) :
    (db.entered h size).files.length = db.files.length+1 ∧ (db.entered h size).paths = db.paths := by
  obtain ⟨cell,-,he,-⟩ := admits_enters ha
  rw [he]
  simp

variable {userId : ℤ} {path fileName : Text} {parentId fileId : ℕ}

theorem createFileNode_taken {r : PathRow} (hn : db.nodeAt userId path = some r) :
    (Statement.createFileNode userId path parentId fileName fileId).exec db = (false,db) :=
  if_pos (by rw [hn]; rfl)

theorem createFileNode_vacant (hn : db.nodeAt userId path = none) :
    (Statement.createFileNode userId path parentId fileName fileId).exec db =
      (true,db.addPath userId path (some fileId) parentId fileName 0) :=
  if_neg (by rw [hn]; simp)

end Hashes

section Insertion

variable {ι : Type} [DecidableEq ι] {lib : Library} {ok : Op → World ι → Choice → Prop} {i : ι}
  {w : World ι} {n : ℕ} {β : Type}

theorem entered_refused {db : Db} {h : Text} {size : ℤ} (hr : db.admits h size = false) :
    db.entered h size = db := by
  unfold Db.admits at hr
  unfold Db.entered
  simp only [Statement.exec] at hr ⊢
  split at hr
  · rfl
  · split at hr
    · rename_i hfull
      exact congrArg Prod.snd (if_pos hfull)
    · cases hr

theorem solo_insert (hok : StatementsHold ok) {h : Text} {size : ℤ} {f : Option ℕ → Server β}
    {Q : β → World ι → Prop} (hrefused : w.db.admits h size = false → Solo lib ok i (f none) Q w)
    (hentered : w.db.admits h size = true →
      Solo lib ok i (f (((w.db.entered h size).known h).map Prod.fst)) Q
        { w with db := w.db.entered h size }) :
    Solo lib ok i (daoFileInsert h size >>= f) Q w := by
  unfold daoFileInsert
  rw [bind_assoc]
  refine solo_sql hok ?_
  change Solo lib ok i ((if w.db.admits h size = true then _ else pure none) >>= f) Q
    { w with db := w.db.entered h size }
  cases ha : w.db.admits h size with
  | false =>
    rw [entered_refused ha]
    exact hrefused ha
  | true =>
    rw [if_pos rfl,bind_assoc]
    refine solo_sql hok ?_
    rw [Statement.exec_reads rfl]
    have hnext := hentered ha
    unfold Db.known at hnext
    dsimp only
    cases hk : ((Statement.fileBySha256 h).exec (w.db.entered h size)).1 with
    | none =>
      rw [hk] at hnext
      exact hnext
    | some e =>
      rw [hk] at hnext
      exact hnext

theorem faulted_insert (hok : StatementsHold ok) {h : Text} {size : ℤ} {f : Option ℕ → Server β}
    {Q : Statement → β → World ι → Prop}
    (hinsert : n = 0 → Solo lib ok i (f none) (Q (.insertFile h size)) w)
    (hrefused : w.db.admits h size = false → ∀ m, n = m+1 → Faulted lib ok i (f none) m Q w)
    (hfind : w.db.admits h size = true → n = 1 → Solo lib ok i (f none) (Q (.fileBySha256 h))
      { w with db := w.db.entered h size })
    (hentered : w.db.admits h size = true → ∀ m, n = m+2 →
      Faulted lib ok i (f (((w.db.entered h size).known h).map Prod.fst)) m Q
        { w with db := w.db.entered h size }) :
    Faulted lib ok i (daoFileInsert h size >>= f) n Q w := by
  unfold daoFileInsert
  rw [bind_assoc]
  refine faulted_sql hok hinsert fun m hm => ?_
  change Faulted lib ok i ((if w.db.admits h size = true then _ else pure none) >>= f) m Q
    { w with db := w.db.entered h size }
  cases ha : w.db.admits h size with
  | false =>
    rw [entered_refused ha]
    exact hrefused ha m hm
  | true =>
    rw [if_pos rfl,bind_assoc]
    refine faulted_sql hok (fun h0 => hfind ha (by omega)) fun k hk => ?_
    rw [Statement.exec_reads rfl]
    have hnext := hentered ha k (by omega)
    unfold Db.known at hnext
    dsimp only
    cases hfound : ((Statement.fileBySha256 h).exec (w.db.entered h size)).1 with
    | none =>
      rw [hfound] at hnext
      exact hnext
    | some e =>
      rw [hfound] at hnext
      exact hnext

end Insertion

section Creation

variable {ι : Type} [DecidableEq ι] {lib : Library} {ok : Op → World ι → Choice → Prop} {i : ι}
  {w : World ι} {n : ℕ} {ctx : ClientContext} {path fileName : Text}

/-- The result of a creation in which nothing fails any more. -/
def Settled (i : ι) (w : World ι) (done : Bool) (w' : World ι) : Prop :=
  w'.told i = w.told i ∧ (done = false → SameRows w.db w'.db)

theorem solo_reuse (hok : StatementsHold ok) (fileId : ℕ) (w : World ι) :
    Solo lib ok i (reuseEmptyFile ctx path fileName fileId) (fun done w' => Settled i w done w' ∧
      (w.db.nodeAt ctx.userId path = none → done = true)) w := by
  refine solo_sql hok ?_
  cases hn : w.db.nodeAt ctx.userId path with
  | some r =>
    rw [createFileNode_taken hn]
    exact ⟨⟨rfl,fun _ => sameRows_refl _⟩,fun hv => absurd hv (Option.some_ne_none r)⟩
  | none =>
    rw [createFileNode_vacant hn]
    exact solo_statement hok ⟨⟨rfl,fun hd => Bool.noConfusion hd⟩,fun _ => rfl⟩

theorem solo_findReuse (hok : StatementsHold ok) (w : World ι) :
    Solo lib ok i (daoFileFindBySha256 emptyFileSha256 >>= fun r => match r with
      | none => pure false
      | some (fileId,_) => reuseEmptyFile ctx path fileName fileId) (fun done w' =>
        Settled i w done w' ∧ (w.db.nodeAt ctx.userId path = none →
          w.db.known emptyFileSha256 ≠ none → done = true)) w := by
  refine solo_sql hok ?_
  rw [Statement.exec_reads rfl]
  change Solo lib ok i (match w.db.known emptyFileSha256 with
    | none => pure false
    | some (fileId,_) => reuseEmptyFile ctx path fileName fileId) _ w
  cases hk : w.db.known emptyFileSha256 with
  | none => exact ⟨⟨rfl,fun _ => sameRows_refl _⟩,fun _ hn => absurd rfl hn⟩
  | some e =>
    refine Machine.wlp_mono _ ?_ (solo_reuse hok e.1 w)
    exact fun done w' h => ⟨h.1,fun hv _ => h.2 hv⟩

theorem solo_enterEmpty (hok : StatementsHold ok) (hk : w.db.Keyed) :
    Solo lib ok i (daoFileInsert emptyFileSha256 0 >>= fun r => match r with
      | none => daoFileFindBySha256 emptyFileSha256 >>= fun r => match r with
        | none => pure false
        | some (fileId,_) => reuseEmptyFile ctx path fileName fileId
      | some fileId =>
        daoCreateFileNode ctx.userId path ctx.currentDirId fileName fileId >>= fun r =>
          if r = true then pure true
          else daoFileDelete fileId >>= fun _ => pure false) (Settled i w) w := by
  refine solo_insert hok (fun _ => ?_) fun ha => ?_
  · exact Machine.wlp_mono _ (fun _ _ h => h.1) (solo_findReuse hok w)
  · have hnew : w.db.known emptyFileSha256 = none := by
      by_contra hne
      obtain ⟨e,he⟩ := Option.ne_none_iff_exists'.mp hne
      have hrefused := (known_refused hk he 0).1
      rw [ha] at hrefused
      cases hrefused
    obtain ⟨-,hentered,hfound⟩ := emptyFile_entered hnew 0
    rw [hentered,hfound]
    refine solo_sql hok ?_
    cases hn : (w.db.addFile emptyFileBytes 0).nodeAt ctx.userId path with
    | some r =>
      rw [createFileNode_taken hn]
      exact solo_sql hok ⟨rfl,fun _ => sameRows_dropNew hk _ _⟩
    | none =>
      rw [createFileNode_vacant hn]
      exact ⟨rfl,fun hd => Bool.noConfusion hd⟩

theorem hush_ensure : Hush ensureEmptyStoreFileExists := by
  refine Program.uses_bind _ _ (buildStoreFilePath_uses (fun o => o.hushed = true) rfl _)
    fun r => ?_
  cases r with
  | none => trivial
  | some path => exact ⟨rfl,fun _ => trivial⟩

theorem solo_createEmptyFile (hok : StatementsHold ok) (hk : w.db.Keyed) :
    Solo lib ok i (createEmptyFileNode ctx path fileName) (Settled i w) w := by
  refine solo_after hush_ensure fun ready w₁ h₁ => ?_
  rw [← h₁.db] at hk
  have hback : ∀ done w', Settled i w₁ done w' → Settled i w done w' := by
    intro done w' h
    refine ⟨h.1.trans h₁.told,fun hd => ?_⟩
    rw [← h₁.db]
    exact h.2 hd
  cases ready with
  | false => exact hback _ _ ⟨rfl,fun _ => sameRows_refl _⟩
  | true =>
    refine Machine.wlp_mono _ hback ?_
    refine solo_sql hok ?_
    rw [Statement.exec_reads rfl]
    cases ((Statement.fileBySha256 emptyFileSha256).exec w₁.db).1 with
    | some e => exact Machine.wlp_mono _ (fun _ _ h => h.1) (solo_reuse hok e.1 w₁)
    | none => exact solo_enterEmpty hok hk

/-- The result of a creation one of whose statements fails. -/
def Tallied (i : ι) (w : World ι) (F : Statement) (done : Bool) (w' : World ι) : Prop :=
  w'.told i = w.told i ∧ (done = false → (SameRows w.db w'.db ↔ F.counting = false))

omit [DecidableEq ι] in
theorem settled_tallied {F : Statement} {done : Bool} {w' : World ι} (hF : F.counting = false)
    (h : Settled i w done w') : Tallied i w F done w' :=
  ⟨h.1,fun hd => iff_of_true (h.2 hd) hF⟩

theorem addPath_longer {db : Db} {userId : ℤ} {fileId : Option ℕ} {parentId type : ℕ} :
    ¬SameRows db (db.addPath userId path fileId parentId fileName type) :=
  sameRows_paths (by simp)

theorem faulted_reuse (hok : StatementsHold ok) (hn : w.db.nodeAt ctx.userId path = none)
    (fileId : ℕ) :
    Faulted lib ok i (reuseEmptyFile ctx path fileName fileId) n (Tallied i w) w := by
  refine faulted_sql hok (fun _ => ?_) fun m _ => ?_
  · exact ⟨rfl,fun _ => iff_of_true (sameRows_refl _) rfl⟩
  · rw [createFileNode_vacant hn]
    exact faulted_statement hok fun _ => ⟨rfl,fun _ => iff_of_false addPath_longer Bool.true_eq_false_eq_False⟩

theorem faulted_createEmptyFileNode (hok : StatementsHold ok) (hk : w.db.Keyed)
    (hn : w.db.nodeAt ctx.userId path = none) :
    Faulted lib ok i (createEmptyFileNode ctx path fileName) n (Tallied i w) w := by
  refine faulted_after hush_ensure fun ready w₁ h₁ => ?_
  rw [← h₁.db] at hk hn
  have hback : ∀ F done w', Tallied i w₁ F done w' → Tallied i w F done w' := by
    intro F done w' h
    refine ⟨h.1.trans h₁.told,fun hd => ?_⟩
    rw [← h₁.db]
    exact h.2 hd
  cases ready with
  | false => exact faulted_never trivial
  | true =>
    refine faulted_mono hback ?_
    refine faulted_sql hok (fun _ => ?_) fun m _ => ?_
    · exact Machine.wlp_mono _ (fun _ _ h => settled_tallied rfl h) (solo_enterEmpty hok hk)
    rw [Statement.exec_reads rfl]
    cases hknown : ((Statement.fileBySha256 emptyFileSha256).exec w₁.db).1 with
    | some e => exact faulted_reuse hok hn e.1
    | none =>
      obtain ⟨ha,hentered,hfound⟩ := emptyFile_entered hknown 0
      refine faulted_insert hok (fun _ => ?_) (fun hr => ?_) (fun _ _ => ?_) fun _ k _ => ?_
      · exact Machine.wlp_mono _ (fun _ _ h => settled_tallied rfl h.1) (solo_findReuse hok w₁)
      · rw [ha] at hr
        cases hr
      · rw [hentered]
        refine Machine.wlp_mono _ ?_ (solo_findReuse hok _)
        rintro done w' ⟨⟨ht,-⟩,hdone⟩
        have htrue := hdone hn (by rw [hfound]; exact Option.some_ne_none _)
        exact ⟨ht,fun hd => absurd (hd.symm.trans htrue) Bool.false_ne_true⟩
      · rw [hentered,hfound]
        refine faulted_sql hok (fun _ => ?_) fun m _ => ?_
        · refine solo_sql hok ⟨rfl,fun _ => iff_of_true (sameRows_dropNew hk _ _) rfl⟩
        · have hn' : (w₁.db.addFile emptyFileBytes 0).nodeAt ctx.userId path = none := hn
          rw [createFileNode_vacant hn']
          exact faulted_never trivial

/-- After a failure `touch` leaves the tables as they were, unless the new reference
is not counted. -/
theorem faulted_touch (hok : StatementsHold ok) (hk : w.db.Keyed) (ctx : ClientContext)
    (arg : Text) :
    Faulted lib ok i (handleTouch ctx arg) n (fun F _ w' => Judged i w
      (fun db' _ => SameRows w.db db' ↔ F.counting = false) w') w := by
  have hreply : ∀ msg, (sendMsg msg).Uses fun o => o.isSql = false :=
    fun _ => ⟨rfl,fun _ => trivial⟩
  unfold handleTouch
  split
  · exact faulted_never (hreply _)
  refine faulted_strcpy (faulted_strcpy ?_)
  split
  · rename_i hvalid
    have hroot : absPath ctx.currentPath arg ≠ "/".toList := by
      intro hroot
      rw [hroot] at hvalid
      exact absurd hvalid (by decide)
    unfold daoGetNodeByPath
    rw [if_neg hroot]
    refine faulted_sql hok (fun _ => ?_) fun m _ => ?_
    · refine solo_bind (Machine.wlp_mono _ ?_ (solo_createEmptyFile hok hk))
      rintro done w' ⟨ht,hrows⟩
      cases done with
      | false => exact solo_told ht fun _ => iff_of_true (hrows rfl) rfl
      | true => exact solo_told ht fun hs => absurd (by decide) hs
    · simp only [Statement.exec]
      cases hnode : w.db.nodeAt ctx.userId (absPath ctx.currentPath arg) with
      | some r => exact faulted_never (hreply _)
      | none =>
        refine faulted_then ?_ (faulted_mono ?_ (faulted_createEmptyFileNode hok hk hnode))
        · intro done
          cases done <;> exact hreply _
        · rintro F done w' ⟨ht,hrows⟩
          cases done with
          | false => exact solo_told ht fun _ => hrows rfl
          | true => exact solo_told ht fun hs => absurd (by decide) hs
  · exact faulted_never (hreply _)

end Creation

end WindCloud
