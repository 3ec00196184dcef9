import WindCloud.Client.Console

/-!
# Requests of the main thread

Behind every request the main thread has sent it receives one reply, in the
layout that belongs to the request, before it sends the next one.
-/

set_option autoImplicit false

namespace WindCloud
open CString Effect

namespace Client

/-- The layout an operation receives on the control connection. -/
def Op.hears : Op → Option PacketKind
  | .recvPlan => some .plan
  | .recvTicket => some .ticket
  | _ => none

/-- The layout to be received behind a request that has been sent. -/
def Op.awaits : (o : Op) → o.Res → Option PacketKind
  | .sendCommand p, sent => if sent = true then some (getPacketCmdType p).replyKind else none
  | _, _ => none

def ConsoleOp.hears : ConsoleOp → Option PacketKind
  | .inl o => o.hears
  | .inr .recvAuth => some .auth
  | .inr .recvReply => some .command

def ConsoleOp.awaits : (o : ConsoleOp) → ConsoleOp.Res o → Option PacketKind
  | .inl o, r => o.awaits r
  | .inr _, _ => none

/-- Operations that leave the control connection alone. -/
def Op.aside : Op → Bool
  | .sendCommand _ | .recvPlan | .recvTicket => false
  | _ => true

abbrev Aside {α : Type} (p : Client α) : Prop := p.Uses fun o => o.aside = true

/-- The program asks and listens in turn, starting with what is `due`. -/
abbrev Talks {α : Type} (due : Option PacketKind) (p : Client α) : Prop :=
  p.Follows Op.hears Op.awaits due

abbrev ConsoleTalks {α : Type} (due : Option PacketKind) (p : Console α) : Prop :=
  p.Follows ConsoleOp.hears ConsoleOp.awaits due

theorem hears_aside {o : Op} (ho : o.aside = true) : o.hears = none := by
  cases o <;> first | rfl | cases ho

theorem awaits_aside {o : Op} (r : o.Res) (ho : o.aside = true) : o.awaits r = none := by
  cases o <;> first | rfl | cases ho

section Rules

variable {α β : Type}

theorem talks_aside {p : Client α} (hp : Aside p) : Talks none p :=
  Program.follows_uses (fun _ => hears_aside) (fun _ r => awaits_aside r) hp

theorem talks_bind {due : Option PacketKind} {p : Client α} {f : α → Client β} (hp : Talks due p)
    (hf : ∀ a, Talks none (f a)) : Talks due (p >>= f) :=
  Program.follows_bind p f due hp hf

theorem talks_local {p : Client α} {f : α → Client β} (hp : Aside p) (hf : ∀ a, Talks none (f a)) :
    Talks none (p >>= f) :=
  talks_bind (talks_aside hp) hf

theorem aside_bind {p : Client α} {f : α → Client β} (hp : Aside p) (hf : ∀ a, Aside (f a)) :
    Aside (p >>= f) :=
  Program.uses_bind p f hp hf

theorem aside_perform {o : Op} (ho : o.aside = true) : Aside (perform o) := ⟨ho,fun _ => trivial⟩

theorem aside_print (msg : String) : Aside (print msg) := aside_perform rfl

theorem talks_sendCommand {type : CmdType} {data : Text} {f : Bool → Client α}
    (hsent : Talks (some type.replyKind) (f true)) (hunsent : Talks none (f false)) :
    Talks none (sendCommand type data >>= f) := by
  refine ⟨rfl,fun r => ?_⟩
  cases (r : Bool) with
  | false => exact hunsent
  | true => exact hsent

theorem talks_receive {o : Op} {k : PacketKind} {f : o.Res → Client α} (ho : o.hears = some k)
    (hf : ∀ r, Talks none (f r)) : Talks (some k) (perform o >>= f) := by
  cases o <;> first | exact ⟨ho,hf⟩ | cases ho

theorem consoleTalks_bind {due : Option PacketKind} {p : Console α} {f : α → Console β}
    (hp : ConsoleTalks due p) (hf : ∀ a, ConsoleTalks none (f a)) :
    ConsoleTalks due (p >>= f) :=
  Program.follows_bind p f due hp hf

theorem consoleTalks_ofClient {due : Option PacketKind} {p : Client α} (hp : Talks due p) :
    ConsoleTalks due (ofClient p) :=
  Program.follows_rename (fun _ => rfl) (fun _ _ => rfl) hp

theorem consoleTalks_sendCommand {type : CmdType} {data : Text} {f : Bool → Console α}
    (hsent : ConsoleTalks (some type.replyKind) (f true)) (hunsent : ConsoleTalks none (f false)) :
    ConsoleTalks none (ofClient (sendCommand type data) >>= f) := by
  refine ⟨rfl,fun r => ?_⟩
  cases (r : Bool) with
  | false => exact hunsent
  | true => exact hsent

theorem consoleTalks_say (msg : String) {f : Unit → Console α} (hf : ConsoleTalks none (f ())) :
    ConsoleTalks none (say msg >>= f) :=
  consoleTalks_bind (consoleTalks_ofClient (talks_aside (aside_print msg))) fun _ => hf

theorem consoleTalks_sayText (msg : Text) {f : Unit → Console α} (hf : ConsoleTalks none (f ())) :
    ConsoleTalks none (sayText msg >>= f) :=
  consoleTalks_bind (consoleTalks_ofClient (talks_aside (aside_perform rfl))) fun _ => hf

end Rules

section Preparation

theorem aside_saveMetaFile (m : MultipartTaskMeta) : Aside (saveMetaFile m) := aside_perform rfl

theorem aside_syncParts (is : List PartIndex) (m : MultipartTaskMeta) : Aside (syncParts is m) := by
  induction is generalizing m with
  | nil => trivial
  | cons i is ih => exact aside_bind (aside_perform rfl) fun _ => ih _

theorem aside_resumeTask (m : MultipartTaskMeta) : Aside (resumeTask m) := by
  unfold resumeTask
  split
  · trivial
  · refine aside_bind (aside_syncParts _ _) fun m => aside_bind (aside_saveMetaFile m) fun r => ?_
    cases r <;> trivial

theorem aside_syncProgress (m : MultipartTaskMeta) : Aside (multipartTaskSyncProgress m) :=
  aside_bind (aside_syncParts _ _) fun m => aside_bind (aside_saveMetaFile m) fun _ => trivial

theorem aside_makeDirs (dirs : List Text) : Aside (makeDirs dirs) := by
  induction dirs with
  | nil => trivial
  | cons d ds ih =>
    refine aside_bind (aside_perform rfl) fun r => ?_
    cases (r : Bool) with
    | false => trivial
    | true => exact ih

theorem aside_ensureDir (dir : Text) : Aside (ensureDirRecursive dir) := by
  unfold ensureDirRecursive
  split
  · trivial
  · exact aside_makeDirs _

theorem aside_buildTaskPaths (clientFileDir fileHash : Text) :
    Aside (buildTaskPaths clientFileDir fileHash) := by
  unfold buildTaskPaths
  split
  · trivial
  refine aside_bind (aside_ensureDir _) fun r => ?_
  cases r with
  | false => trivial
  | true =>
    simp only [if_true]
    split
    · trivial
    refine aside_bind (aside_ensureDir _) fun r => ?_
    cases r with
    | false => trivial
    | true =>
      simp only [if_true]
      split <;> trivial

theorem aside_reloadTask (m : MultipartTaskMeta) (plan : MultiGetsPlan) :
    Aside (reloadTask m plan) := by
  refine aside_bind (aside_perform rfl) fun r => ?_
  cases (r : Bool) with
  | false => trivial
  | true =>
    have hload : Aside (loadMetaFile m) := by
      refine aside_bind (aside_perform rfl) fun r => ?_
      cases r <;> trivial
    refine aside_bind hload fun r => ?_
    cases r with
    | none => trivial
    | some loaded =>
      dsimp only
      split <;> trivial

theorem aside_rebuildTask (clientFileDir : Text) (plan : MultiGetsPlan) :
    Aside (rebuildTask clientFileDir plan) := by
  refine aside_bind (aside_buildTaskPaths _ _) fun r => ?_
  rcases r with _ | ⟨taskDir,metaFilePath⟩
  · trivial
  · dsimp only
    split
    · trivial
    · refine aside_bind (aside_saveMetaFile _) fun r => ?_
      cases r <;> trivial

theorem aside_prepare (clientFileDir : Text) (plan : MultiGetsPlan) :
    Aside (multipartTaskPrepare clientFileDir plan) := by
  refine aside_bind (aside_buildTaskPaths _ _) fun r => ?_
  rcases r with _ | ⟨taskDir,metaFilePath⟩
  · trivial
  · refine aside_bind (aside_reloadTask _ _) fun r => ?_
    cases r with
    | some loaded => exact aside_resumeTask loaded
    | none => exact aside_rebuildTask _ _

theorem aside_prepareDownload (clientFileDir : Text) (plan : MultiGetsPlan) :
    Aside (prepareDownload clientFileDir plan) := by
  refine aside_bind (aside_prepare _ _) fun r => ?_
  cases r with
  | none => exact aside_bind (aside_print _) fun _ => trivial
  | some m =>
    refine aside_bind (aside_syncProgress m) fun r => ?_
    rcases r with ⟨_ | _,m⟩
    · exact aside_bind (aside_print _) fun _ => trivial
    · trivial

end Preparation

section Transfers

theorem talks_plan (arg : Text) : Talks none (requestMultiGetsPlan arg) := by
  refine talks_sendCommand (talks_receive rfl fun r => ?_) (talks_local (aside_print _) fun _ => rfl)
  rcases (r : Option MultiGetsPlan) with _ | plan
  · exact talks_local (aside_print _) fun _ => rfl
  · refine talks_local (aside_perform rfl) fun _ => ?_
    split <;> rfl

theorem talks_rangeTicket (fileName : Text) (p : MultipartPartInfo) :
    Talks none (requestGetsRangeTicket fileName p) := by
  unfold requestGetsRangeTicket
  split
  · rfl
  refine talks_sendCommand (talks_receive rfl fun r => ?_) (talks_local (aside_print _) fun _ => rfl)
  rcases (r : Option TransferTicketReply) with _ | reply
  · exact talks_local (aside_print _) fun _ => rfl
  · dsimp only
    split
    · rfl
    · exact talks_local (aside_perform rfl) fun _ => rfl

theorem talks_tickets (m : MultipartTaskMeta) (is : List PartIndex) :
    Talks none (requestTickets m is) := by
  induction is with
  | nil => rfl
  | cons i is ih =>
    unfold requestTickets
    split
    · exact ih
    refine talks_bind (talks_rangeTicket _ _) fun r => ?_
    cases r with
    | none => rfl
    | some ticket =>
      refine talks_bind ih fun r => ?_
      cases r <;> rfl

theorem talks_download (clientFileDir arg : Text) : Talks none (requestDownload clientFileDir arg) := by
  unfold requestDownload
  split
  · exact talks_local (aside_print _) fun _ => rfl
  rename_i path _
  refine talks_bind (talks_plan arg) fun r => ?_
  cases r with
  | none => rfl
  | some plan =>
    refine talks_local (aside_prepareDownload _ _) fun r => ?_
    cases r with
    | none => rfl
    | some m =>
      refine talks_bind (talks_tickets m _) fun r => ?_
      cases r with
      | none => exact talks_local (aside_print _) fun _ => rfl
      | some tasks =>
        refine talks_local (aside_perform rfl) fun r => ?_
        cases (r : Bool) <;> exact talks_local (aside_print _) fun _ => rfl

theorem talks_transferTicket (arg : Text) (size : ℕ) :
    Talks none (requestTransferTicket .puts arg size) := by
  refine talks_sendCommand (talks_receive rfl fun r => ?_) (talks_local (aside_print _) fun _ => rfl)
  rcases (r : Option TransferTicketReply) with _ | reply
  · exact talks_local (aside_print _) fun _ => rfl
  · refine talks_local (aside_perform rfl) fun _ => ?_
    split <;> rfl

theorem talks_puts (clientFileDir arg : Text) : Talks none (handlePutsCommand clientFileDir arg) := by
  unfold handlePutsCommand
  split
  · exact talks_local (aside_print _) fun _ => rfl
  refine talks_local (aside_perform rfl) fun r => ?_
  cases (r : Bool) with
  | false => exact talks_local (aside_print _) fun _ => rfl
  | true =>
    refine talks_bind (talks_transferTicket arg _) fun r => ?_
    cases r with
    | none => rfl
    | some ticket =>
      refine talks_local (aside_perform rfl) fun r => ?_
      cases (r : Bool) <;> exact talks_local (aside_print _) fun _ => rfl

end Transfers

section Commands

variable (clientFileDir : Text) (state : ClientState)

theorem consoleTalks_login (arg : Text) : ConsoleTalks none (handleLoginCommand state arg) := by
  refine consoleTalks_sendCommand ⟨rfl,fun r => ?_⟩ (consoleTalks_say _ rfl)
  rcases (r : Option AuthReply) with _ | reply
  · exact consoleTalks_say _ rfl
  · refine consoleTalks_sayText _ ?_
    split <;> rfl

theorem consoleTalks_normal {cmdType : CmdType} (ht : cmdType.replyKind = .command) (arg : Text) :
    ConsoleTalks none (handleNormalCommand state cmdType arg) := by
  refine consoleTalks_sendCommand ?_ (consoleTalks_say _ rfl)
  rw [ht]
  refine consoleTalks_bind ⟨rfl,fun r => ?_⟩ fun r => ?_
  · rcases (r : Option Text) with _ | data
    · exact consoleTalks_say _ rfl
    · rfl
  · rcases r with _ | ⟨data,ret⟩
    · rfl
    · refine consoleTalks_sayText _ ?_
      split <;> rfl

theorem replyKind_command {type : CmdType} (hl : type ≠ .login) (hg : type ≠ .gets)
    (hp : type ≠ .puts) (hr : type ≠ .getsRange) : type.replyKind = .command := by
  cases type <;> first | rfl | contradiction

theorem getCmdType_named (cmdStr : Text) : getCmdType cmdStr ≠ .getsRange := by
  have hite : ∀ (p : Prop) [Decidable p] (a b : CmdType), a ≠ .getsRange → b ≠ .getsRange →
      (if p then a else b) ≠ .getsRange := by
    intro p _ a b ha hb
    split
    · exact ha
    · exact hb
  unfold getCmdType
  iterate 11 refine hite _ _ _ nofun ?_
  nofun

theorem consoleTalks_process (input : Text) :
    ConsoleTalks none (processCommand clientFileDir state input) := by
  unfold processCommand
  dsimp only
  split
  · exact consoleTalks_say _ rfl
  split
  · exact consoleTalks_say _ rfl
  · exact consoleTalks_login state _
  · exact consoleTalks_bind (consoleTalks_ofClient (talks_download _ _)) fun _ => rfl
  · exact consoleTalks_bind (consoleTalks_ofClient (talks_puts _ _)) fun _ => rfl
  · rename_i _ hl hg hp
    refine consoleTalks_normal state ?_ _
    exact replyKind_command hl hg hp (getCmdType_named _)

theorem consoleTalks_menu (inputs : List Text) :
    ConsoleTalks none (clientLoginMenu clientFileDir inputs state) := by
  induction inputs generalizing state with
  | nil => rfl
  | cons input rest ih =>
    unfold clientLoginMenu
    split
    · exact consoleTalks_say _ rfl
    split
    · refine consoleTalks_bind (consoleTalks_process _ _ _) fun ⟨state,ret⟩ => ?_
      dsimp only
      split
      · rfl
      · exact ih state
    · exact ih state

theorem consoleTalks_loop (inputs : List Text) :
    ConsoleTalks none (commandLoop clientFileDir inputs state) := by
  induction inputs generalizing state with
  | nil => rfl
  | cons input rest ih =>
    unfold commandLoop
    split
    · exact consoleTalks_say _ rfl
    split
    · exact ih state
    · exact consoleTalks_bind (consoleTalks_process _ _ _) fun ⟨state,_⟩ => ih state

theorem consoleTalks_main (inputs : List Text) :
    ConsoleTalks none (mainThread clientFileDir inputs) := by
  refine consoleTalks_bind (consoleTalks_menu _ _ _) fun r => ?_
  rcases r with _ | ⟨state,rest⟩
  · rfl
  · exact consoleTalks_bind (consoleTalks_loop _ _ _) fun _ => rfl

end Commands

end Client

end WindCloud
