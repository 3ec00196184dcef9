import WindCloud.Lib.Runs
import WindCloud.Server.SessionMoves

/-!
# Paths and names in the arrays of the directory commands

`handle_cd`, `handle_mkdir`, `handle_touch`, `handle_rm` and `handle_rmdir` write
a path into an array of 256 bytes and a name into one of 64 before they look at
the lengths. Which arguments keep inside is said by their own lengths and that of
the session's path.
-/

set_option autoImplicit false

namespace WindCloud
open CString Effect

inductive DirectoryCommand where
  | cd | mkdir | touch | rm | rmdir
  deriving DecidableEq, Repr

namespace DirectoryCommand

def handle : DirectoryCommand → ClientContext → Text → Server ClientContext
  | .cd, ctx, arg => handleCd ctx arg
  | .mkdir, ctx, arg => do handleMkdir ctx arg; pure ctx
  | .touch, ctx, arg => do handleTouch ctx arg; pure ctx
  | .rm, ctx, arg => do handleRm ctx arg; pure ctx
  | .rmdir, ctx, arg => do handleRmdir ctx arg; pure ctx

/-- The path `build_abs_path` or `get_parent_path` produces. -/
def targetPath : DirectoryCommand → (currentPath arg : Text) → Option Text
  | .cd, currentPath, arg =>
    if arg = [] then none
    else if arg = "..".toList then some (parentPath currentPath)
    else if arg = ".".toList then none
    else some (absPath currentPath arg)
  | _, currentPath, arg => if arg = [] then none else some (absPath currentPath arg)

/-- The name `extract_file_name` produces. -/
def targetName : DirectoryCommand → (currentPath arg : Text) → Option Text
  | .mkdir, currentPath, arg | .touch, currentPath, arg =>
    if arg = [] then none else some (baseName (absPath currentPath arg))
  | _, _, _ => none

/-- What the command writes into its arrays stays inside. -/
structure WithinArrays (c : DirectoryCommand) (ctx : ClientContext) (arg : Text) : Prop where
  path : ∀ t, c.targetPath ctx.currentPath arg = some t → t.length ≤ 255
  name : ∀ t, c.targetName ctx.currentPath arg = some t → t.length ≤ 63
  writes : (c.handle ctx arg).Uses (· ≠ .overflow)

def special : DirectoryCommand → (arg : Text) → Prop
  | .cd, arg => arg = [] ∨ arg = "..".toList ∨ arg = ".".toList
  | _, arg => arg = []

/-- The argument and the path it is put behind leave room for the end of the string. -/
def JoinFits (currentPath arg : Text) : Prop :=
  arg.head? = some '/' ∨ (currentPath = "/".toList ∧ arg.length ≤ 254) ∨
    currentPath.length+1+arg.length ≤ 255

/-- The part of the argument behind its last slash is short, where it is made a name. -/
def NameFits : DirectoryCommand → (arg : Text) → Prop
  | .mkdir, arg | .touch, arg => (baseName arg).length ≤ 63
  | _, _ => True

end DirectoryCommand

open DirectoryCommand

section Joins

variable {currentPath arg : Text}

theorem joinFits_iff (harg : arg.length < cmdDataLen) :
    (absPath currentPath arg).length ≤ 255 ↔ JoinFits currentPath arg := by
  unfold cmdDataLen at harg
  unfold absPath JoinFits
  split
  · rename_i habs
    exact iff_of_true (by omega) (.inl habs)
  · rename_i hrel
    split
    · rename_i hroot
      rw [List.length_cons,hroot]
      constructor
      · exact fun h => .inr (.inl ⟨rfl,by omega⟩)
      · rintro (h | ⟨-,h⟩ | h)
        · exact absurd h hrel
        · omega
        · have hlen : "/".toList.length = 1 := by decide
          omega
    · rename_i hroot
      rw [List.length_append,List.length_cons]
      constructor
      · exact fun h => .inr (.inr (by omega))
      · rintro (h | ⟨h,-⟩ | h)
        · exact absurd h hrel
        · exact absurd h hroot
        · omega

theorem baseName_absPath (currentPath arg : Text) :
    baseName (absPath currentPath arg) = baseName arg := by
  have hjoined : ∀ before : Text, baseName (before ++ '/'::arg) = baseName arg := by
    intro before
    cases hs : splitLast '/' arg with
    | none =>
      have hnone := splitLast_none.mp hs
      have hjoin : splitLast '/' (before ++ '/'::arg) = some (before,arg) :=
        splitLast_some.mpr ⟨rfl,hnone⟩
      rw [baseName,baseName,hs,hjoin]
    | some ab =>
      obtain ⟨a,b⟩ := ab
      obtain ⟨harg,hb⟩ := splitLast_some.mp hs
      have hjoin : splitLast '/' (before ++ '/'::arg) = some (before ++ '/'::a,b) := by
        refine splitLast_some.mpr ⟨?_,hb⟩
        rw [harg,List.append_assoc,List.cons_append]
      rw [baseName,baseName,hs,hjoin]
  unfold absPath
  split
  · rfl
  · split
    · exact hjoined []
    · exact hjoined currentPath

theorem parentPath_length (h : currentPath.length ≤ 255) : (parentPath currentPath).length ≤ 255 := by
  unfold parentPath
  split
  · decide
  · cases hs : splitLast '/' currentPath with
    | none => exact h
    | some ab =>
      obtain ⟨before,name⟩ := ab
      obtain ⟨hpath,-⟩ := splitLast_some.mp hs
      dsimp only
      split
      · decide
      · rw [hpath,List.length_append] at h
        omega

end Joins

section Writes

variable {α β : Type} {ctx : ClientContext} {arg : Text}

abbrev Inside (p : Server α) : Prop := p.Uses (· ≠ .overflow)

theorem strcpy_inside {size : ℕ} {t : Text} {f : Text → Server β} :
    Inside (strcpy size t >>= f) ↔ t.length < size ∧ Inside (f t) := by
  unfold strcpy
  split
  · rename_i hlen
    exact ⟨fun h => ⟨hlen,h⟩,fun h => h.2⟩
  · rename_i hlen
    exact iff_of_false (fun h => h.1 rfl) fun h => hlen h.1

theorem inside_bind {p : Server α} {f : α → Server β} (hp : Inside p) (hf : ∀ a, Inside (f a)) :
    Inside (p >>= f) :=
  Program.uses_bind p f hp hf

theorem inside_sql (t : Statement) : Inside (sql t) := ⟨nofun,fun _ => trivial⟩

theorem inside_sendMsg (msg : Text) : Inside (sendMsg msg) := ⟨nofun,fun _ => trivial⟩

theorem inside_getNodeByPath (userId : ℤ) (path : Text) : Inside (daoGetNodeByPath userId path) :=
  getNodeByPath_uses _ (fun _ _ => nofun) userId path

theorem inside_last {p : Server α} {b : β} : Inside (p >>= fun _ => pure b) ↔ Inside p :=
  ⟨Program.uses_of_bind p _,fun h => inside_bind h fun _ => trivial⟩

theorem inside_join {ctx : ClientContext} {arg : Text} (harg : arg.length < cmdDataLen)
    {f : Text → Server β} (hf : ∀ t, Inside (f t)) :
    Inside (buildAbsPath ctx.currentPath arg >>= f) ↔ JoinFits ctx.currentPath arg := by
  rw [buildAbsPath,strcpy_inside,← joinFits_iff harg]
  constructor
  · rintro ⟨h,-⟩
    omega
  · exact fun h => ⟨by omega,hf _⟩

theorem inside_joinName {ctx : ClientContext} {arg : Text} (harg : arg.length < cmdDataLen)
    {f : Text → Text → Server β} (hf : ∀ t name, Inside (f t name)) :
    Inside (buildAbsPath ctx.currentPath arg >>= fun t => extractFileName 64 t >>= f t) ↔
      JoinFits ctx.currentPath arg ∧ (baseName arg).length ≤ 63 := by
  rw [buildAbsPath,strcpy_inside,extractFileName,strcpy_inside,baseName_absPath,← joinFits_iff harg]
  constructor
  · rintro ⟨h,hname,-⟩
    exact ⟨by omega,by omega⟩
  · rintro ⟨h,hname⟩
    exact ⟨by omega,by omega,hf _ _⟩

theorem inside_enterDir (ctx : ClientContext) (t : Text) : Inside (enterDir ctx t) := by
  refine inside_bind (inside_getNodeByPath _ _) fun r => ?_
  rcases r with _ | ⟨targetId,nodeType⟩
  · exact inside_bind (inside_sendMsg _) fun _ => trivial
  · dsimp only
    split
    · exact inside_bind (inside_sendMsg _) fun _ => trivial
    · exact inside_bind (inside_sendMsg _) fun _ => trivial

end Writes

section Commands

variable {ctx : ClientContext} {arg : Text}

theorem handleCd_inside (hpath : ctx.currentPath.length ≤ 255) (harg : arg.length < cmdDataLen) :
    Inside (handleCd ctx arg) ↔ special .cd arg ∨ JoinFits ctx.currentPath arg := by
  unfold handleCd special
  split
  · rename_i ha
    exact iff_of_true (inside_bind (inside_sendMsg _) fun _ => trivial) (.inl (.inl ha))
  split
  · rename_i hup
    have hparent := parentPath_length hpath
    refine iff_of_true ?_ (.inl (.inr (.inl hup)))
    rw [getParentPath,strcpy_inside]
    exact ⟨by omega,inside_enterDir ctx _⟩
  split
  · rename_i hdot
    exact iff_of_true (inside_bind (inside_sendMsg _) fun _ => trivial) (.inl (.inr (.inr hdot)))
  · rename_i ha hup hdot
    have hplain : ¬(arg = [] ∨ arg = "..".toList ∨ arg = ".".toList) := by
      rintro (h | h | h)
      · exact ha h
      · exact hup h
      · exact hdot h
    rw [inside_join harg (inside_enterDir ctx),or_iff_right hplain]

theorem handleMkdir_inside (harg : arg.length < cmdDataLen) :
    Inside (handleMkdir ctx arg) ↔
      arg = [] ∨ JoinFits ctx.currentPath arg ∧ (baseName arg).length ≤ 63 := by
  unfold handleMkdir
  split
  · rename_i ha
    exact iff_of_true (inside_sendMsg _) (.inl ha)
  · rename_i ha
    rw [or_iff_right ha]
    refine inside_joinName harg fun t name => ?_
    split
    · refine inside_bind (inside_getNodeByPath _ _) fun r => ?_
      cases r with
      | some node => exact inside_sendMsg _
      | none =>
        refine inside_bind (inside_sql _) fun r => ?_
        split <;> exact inside_sendMsg _
    · exact inside_sendMsg _

theorem handleTouch_inside (harg : arg.length < cmdDataLen) :
    Inside (handleTouch ctx arg) ↔
      arg = [] ∨ JoinFits ctx.currentPath arg ∧ (baseName arg).length ≤ 63 := by
  unfold handleTouch
  split
  · rename_i ha
    exact iff_of_true (inside_sendMsg _) (.inl ha)
  · rename_i ha
    rw [or_iff_right ha]
    refine inside_joinName harg fun t name => ?_
    split
    · refine inside_bind (inside_getNodeByPath _ _) fun r => ?_
      cases r with
      | some node => exact inside_sendMsg _
      | none =>
        refine inside_bind (createEmptyFileNode_uses _ (fun _ _ => nofun) (fun _ => nofun) nofun
          (fun _ => nofun) fun _ => nofun) fun r => ?_
        split <;> exact inside_sendMsg _
    · exact inside_sendMsg _

theorem handleRm_inside (harg : arg.length < cmdDataLen) :
    Inside (handleRm ctx arg) ↔ arg = [] ∨ JoinFits ctx.currentPath arg := by
  unfold handleRm
  split
  · rename_i ha
    exact iff_of_true (inside_sendMsg _) (.inl ha)
  · rename_i ha
    rw [or_iff_right ha]
    refine inside_join harg fun t => ?_
    refine inside_bind (inside_getNodeByPath _ _) fun r => ?_
    rcases r with _ | ⟨targetId,nodeType⟩
    · exact inside_sendMsg _
    dsimp only
    split
    · exact inside_sendMsg _
    refine inside_bind (getFileInfoByPath_uses _ (fun _ _ => nofun) _ _) fun r => ?_
    rcases r with _ | ⟨id,fileId⟩
    · exact inside_sendMsg _
    have hremove : Inside (removeFile ctx targetId fileId) := by
      refine inside_bind (inside_sql _) fun r => ?_
      split
      · exact release_uses _ (fun _ _ => nofun) nofun (fun _ => nofun) fileId
      · trivial
    refine inside_bind hremove fun r => ?_
    split <;> exact inside_sendMsg _

theorem handleRmdir_inside (harg : arg.length < cmdDataLen) :
    Inside (handleRmdir ctx arg) ↔ arg = [] ∨ JoinFits ctx.currentPath arg := by
  unfold handleRmdir
  split
  · rename_i ha
    exact iff_of_true (inside_sendMsg _) (.inl ha)
  · rename_i ha
    rw [or_iff_right ha]
    refine inside_join harg fun t => ?_
    refine inside_bind (inside_getNodeByPath _ _) fun r => ?_
    rcases r with _ | ⟨targetId,nodeType⟩
    · exact inside_sendMsg _
    dsimp only
    split
    · exact inside_sendMsg _
    refine inside_bind (isDirEmpty_uses _ (fun _ _ => nofun) _ _) fun r => ?_
    rcases r with _ | _ | _
    · exact inside_sendMsg _
    · exact inside_sendMsg _
    · refine inside_bind (inside_sql _) fun r => ?_
      split <;> exact inside_sendMsg _

/-- What a command writes stays inside exactly where its argument has room. -/
theorem withinArrays_iff (c : DirectoryCommand) (hpath : ctx.currentPath.length ≤ 255)
    (harg : arg.length < cmdDataLen) :
    c.WithinArrays ctx arg ↔ c.special arg ∨ JoinFits ctx.currentPath arg ∧ c.NameFits arg := by
  have hjoin : (absPath ctx.currentPath arg).length ≤ 255 ↔ _ := joinFits_iff harg
  have hparent := parentPath_length hpath
  constructor
  · rintro ⟨-,-,hwrites⟩
    cases c with
    | cd =>
      rcases (handleCd_inside hpath harg).mp hwrites with h | h
      · exact .inl h
      · exact .inr ⟨h,trivial⟩
    | mkdir => exact (handleMkdir_inside harg).mp (inside_last.mp hwrites)
    | touch => exact (handleTouch_inside harg).mp (inside_last.mp hwrites)
    | rm => exact ((handleRm_inside harg).mp (inside_last.mp hwrites)).imp_right fun h => ⟨h,trivial⟩
    | rmdir =>
      exact ((handleRmdir_inside harg).mp (inside_last.mp hwrites)).imp_right fun h => ⟨h,trivial⟩
  · intro h
    have hstart : ∀ t, (if arg = [] then none else some (absPath ctx.currentPath arg)) = some t →
        (arg = [] ∨ JoinFits ctx.currentPath arg) → t.length ≤ 255 := by
      intro t ht hor
      split at ht
      · cases ht
      · rename_i hne
        rw [← Option.some.inj ht]
        exact hjoin.mpr (hor.resolve_left hne)
    have hname : ∀ t, (if arg = [] then none else some (baseName (absPath ctx.currentPath arg))) =
        some t → (arg = [] ∨ (baseName arg).length ≤ 63) → t.length ≤ 63 := by
      intro t ht hor
      split at ht
      · cases ht
      · rename_i hne
        rw [← Option.some.inj ht,baseName_absPath]
        exact hor.resolve_left hne
    have hnone : ∀ t : Text, (none : Option Text) = some t → t.length ≤ 63 := by
      intro t ht
      cases ht
    have hfits : ∀ {P : Prop}, arg = [] ∨ JoinFits ctx.currentPath arg ∧ P →
        arg = [] ∨ JoinFits ctx.currentPath arg := fun h => h.imp_right And.left
    cases c with
    | cd =>
      refine ⟨fun t ht => ?_,hnone,
        (handleCd_inside hpath harg).mpr (h.imp_right And.left)⟩
      change (if arg = [] then none
        else if arg = "..".toList then some (parentPath ctx.currentPath)
        else if arg = ".".toList then none
        else some (absPath ctx.currentPath arg)) = some t at ht
      split at ht
      · cases ht
      split at ht
      · rw [← Option.some.inj ht]
        exact hparent
      split at ht
      · cases ht
      · rename_i hne hup hdot
        rw [← Option.some.inj ht]
        refine hjoin.mpr (h.resolve_left ?_).1
        rintro (h | h | h)
        · exact hne h
        · exact hup h
        · exact hdot h
    | mkdir =>
      exact ⟨fun t ht => hstart t ht (hfits h),fun t ht => hname t ht (h.imp_right And.right),
        inside_last.mpr ((handleMkdir_inside harg).mpr h)⟩
    | touch =>
      exact ⟨fun t ht => hstart t ht (hfits h),fun t ht => hname t ht (h.imp_right And.right),
        inside_last.mpr ((handleTouch_inside harg).mpr h)⟩
    | rm =>
      exact ⟨fun t ht => hstart t ht (hfits h),hnone,
        inside_last.mpr ((handleRm_inside harg).mpr (hfits h))⟩
    | rmdir =>
      exact ⟨fun t ht => hstart t ht (hfits h),hnone,
        inside_last.mpr ((handleRmdir_inside harg).mpr (hfits h))⟩

end Commands

theorem dispatch_short {ctx ctx' : ClientContext} {cmdType : CmdType} {data : Text}
    (hctx : ctx.currentPath.length ≤ 255)
    (h : (dispatchControlCommand ctx cmdType data).Returns ctx') : ctx'.currentPath.length ≤ 255 := by
  obtain ⟨ps,hemits⟩ := Program.returns_emits Op.tells _ h
  by_cases hl : cmdType = .login
  · subst hl
    obtain ⟨userId,-,hctx'⟩ := dispatch_login hemits
    rw [hctx']
    unfold loginContext
    split
    · show "/".toList.length ≤ 255
      decide
    · exact hctx
  by_cases hc : cmdType = .cd
  · subst hc
    by_cases hin : ctx.userId = -1
    · rw [(dispatch_refused hin (by decide) (by decide) hemits).2]
      exact hctx
    · cases dispatch_cd hin hemits with
      | stayed _ _ => exact hctx
      | here _ => exact hctx
      | entered _ _ hshort => exact Nat.le_of_lt_succ hshort
  · rw [dispatch_still hl hc h]
    exact hctx

/-- The command with its type, its data and, for each operation, what the other
connections make of the world before it and its outcome. -/
structure PacketEvent (ι : Type) where
  cmdType : CmdType
  data : Text
  outcomes : List (World ι × Choice)

/-- What `recv_command_packet` lets through. -/
def PacketEvent.Accepted {ι : Type} (e : PacketEvent ι) : Prop := e.data.length < cmdDataLen

abbrev PacketSession (ι : Type) := ClientContext × World ι

namespace PacketSession

variable {ι : Type} [DecidableEq ι]

def start (w : World ι) : PacketSession ι := (⟨-1,"/".toList,0⟩,w)

def step (lib : Library) (i : ι) (S : PacketSession ι) (e : PacketEvent ι) :
    Option (PacketSession ι) :=
  (server ι lib).disturbed.run i (dispatchControlCommand S.1 e.cmdType e.data) S.2 e.outcomes

theorem step_short {lib : Library} {i : ι} {S S' : PacketSession ι} {e : PacketEvent ι}
    (hS : S.1.currentPath.length ≤ 255) (h : step lib i S e = some S') :
    S'.1.currentPath.length ≤ 255 :=
  dispatch_short hS (Machine.run_returns _ h)

/-- A session's path fits its array. -/
theorem reached_short {lib : Library} {i : ι} {w : World ι} {S : PacketSession ι}
    (run : Runs.Reached (step lib i) (fun _ e => e.Accepted) (start w) S) :
    S.1.currentPath.length ≤ 255 :=
  Runs.reached_invariant (I := fun S => S.1.currentPath.length ≤ 255)
    (show "/".toList.length ≤ 255 by decide) (fun _ _ _ hS _ hstep => step_short hS hstep) run

end PacketSession

section Sessions

variable {ι : Type} [DecidableEq ι]

/-- In every session, a directory command keeps within its arrays exactly where its
argument names no path to be joined, or has room behind the session's path and, where
a name is made of it, a short last part. -/
theorem directory_commands_bounded (lib : Library) (i : ι) (w : World ι) (S : PacketSession ι)
    (run : Runs.Reached (PacketSession.step lib i) (fun _ e => e.Accepted) (PacketSession.start w) S)
    (c : DirectoryCommand) (arg : Text) (accepted : arg.length < cmdDataLen) :
    c.WithinArrays S.1 arg ↔
      c.special arg ∨ JoinFits S.1.currentPath arg ∧ c.NameFits arg :=
  withinArrays_iff c (PacketSession.reached_short run) accepted

end Sessions

namespace LongName

def lib : Library where
  sha256 _ := [1]
  encode _ := some "token".toList
  decode _ _ _ _ _ := none

def world : World Unit where
  db := { Db.empty with users := [⟨1,"a".toList,"01".toList,"s".toList⟩] }
  minted := []
  drawn := []
  node :=
    { storeDir := "../test/server_files".toList
      address := ("127.0.0.1".toList,"9090".toList)
      store := Inodes.empty []
      desc := fun _ => none
      conn := fun _ => ⟨[],⟨.puts,0,0,[],[]⟩,fun _ => [],[],[]⟩
      tickets := .zero
      unlinked := [] }

def login : PacketEvent Unit :=
  ⟨.login,"a/b".toList,
    [(world,.ok),(world,.ok),(world,.value 0),(world,.ok),(world,.ok)]⟩

def accepts (_ : PacketSession Unit) (e : PacketEvent Unit) : Bool := decide (e.data.length < cmdDataLen)

theorem logged_in : ∃ S, Runs.Reached (PacketSession.step lib ()) (fun _ e => e.Accepted)
    (PacketSession.start world) S ∧ S.1 = ⟨1,"/".toList,0⟩ := by
  have h : (Runs.replay (PacketSession.step lib ()) accepts [login]
      (PacketSession.start world)).map Prod.fst = some ⟨1,"/".toList,0⟩ := by
    decide +kernel
  obtain ⟨S,hS,hctx⟩ := Option.map_eq_some_iff.mp h
  have haccept : ∀ (S : PacketSession Unit) (e : PacketEvent Unit), accepts S e = true → e.Accepted :=
    fun _ _ he => of_decide_eq_true (p := _ < cmdDataLen) he
  exact ⟨S,Runs.reached_mono haccept (Runs.replay_reached hS),hctx⟩

end LongName

open LongName in
/-- A name of 64 bytes that a session at the root makes a directory of. -/
theorem long_name_overruns : ¬∀ (lib : Library) (w : World Unit) (S : PacketSession Unit),
    Runs.Reached (PacketSession.step lib ()) (fun _ e => e.Accepted) (PacketSession.start w) S →
      ∀ (c : DirectoryCommand) (arg : Text), arg.length < cmdDataLen → c.WithinArrays S.1 arg := by
  intro hall
  obtain ⟨S,hS,hctx⟩ := logged_in
  have hwithin := hall lib world S hS .mkdir (List.replicate 64 'a') (by decide)
  rw [hctx] at hwithin
  exact absurd (hwithin.name _ rfl) (by decide)

open LongName in
theorem short_name_fits : ∃ S : PacketSession Unit,
    Runs.Reached (PacketSession.step lib ()) (fun _ e => e.Accepted) (PacketSession.start world) S ∧
      S.1 = ⟨1,"/".toList,0⟩ ∧ DirectoryCommand.mkdir.WithinArrays S.1 "doc".toList := by
  obtain ⟨S,hS,hctx⟩ := logged_in
  refine ⟨S,hS,hctx,?_⟩
  have hfits : JoinFits "/".toList "doc".toList := .inr (.inl ⟨rfl,by decide⟩)
  have hname : mkdir.NameFits "doc".toList := Nat.le_of_ble_eq_true rfl
  rw [directory_commands_bounded lib () world S hS .mkdir "doc".toList (by decide),hctx]
  exact .inr ⟨hfits,hname⟩

end WindCloud
