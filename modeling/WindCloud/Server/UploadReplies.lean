import WindCloud.Server.ReceiveBranches
import WindCloud.Server.SessionMoves

/-!
# Replies of an upload

Behind its file packet the client reads a file packet, and then either nothing
or a text. `handle_puts` answers in this order once it has come to its
handshake; several of its exits before that send the text at once.
-/

set_option autoImplicit false

namespace WindCloud
open CString Effect

abbrev Happening := (o : Op) × o.Res

def packetsOf (t : List Happening) : List Packet := t.filterMap fun e => e.1.tells

/-- What the client reads: a file packet, and a text unless the packet carries
the hash of its file. -/
inductive Orderly (sha256sum : Text) : List Packet → Prop
  | instant (p : FilePacket) (same : p.hash = sha256sum) : Orderly sha256sum [.file p]
  | answered (p : FilePacket) (cmdType : CmdType) (data : Text) (differs : p.hash ≠ sha256sum) :
      Orderly sha256sum [.file p,.command cmdType data]

/-- Results that make `handle_puts` give up before its handshake: the path in the
store cannot be built, the store file cannot be examined or opened, or the
link of an instant upload cannot be made. -/
def Upsets (sha256sum : Text) : Happening → Prop
  | ⟨.storeDir,dir⟩ => (dir.bind fun d => bounded maxPathLen (d ++ '/'::sha256sum)) = none
  | ⟨.stat _,result⟩ => result = .failed
  | ⟨.openUpload _,done⟩ => done = false
  | ⟨.sql (.createFileNode _ _ _ _ _),done⟩ => done = false
  | ⟨.sql (.addRefCount _),done⟩ => done = false
  | _ => False

/-- Nothing has gone wrong before the first packet. -/
def Undisturbed (sha256sum : Text) (t : List Happening) : Prop :=
  ∀ e ∈ t.takeWhile fun e => e.1.tells.isNone, ¬Upsets sha256sum e

/-- The client's packet arrives, and no packet to it is lost. -/
structure Connected (packet : FilePacket) (t : List Happening) : Prop where
  received : ∀ r, ⟨.recvFile,r⟩ ∈ t → r = some packet
  sent : ∀ p, ⟨.send p,false⟩ ∉ t

/-- The order of the replies depends on what happens before the first one. -/
def Fair (packet : FilePacket) (p : Server Unit) : Prop :=
  ∀ t, p.Traces t () → Connected packet t →
    (Orderly packet.hash (packetsOf t) ↔ Undisturbed packet.hash t)

def Blunt (p : Server Unit) : Prop :=
  ∀ t, p.Traces t () → ∃ cmdType data rest, packetsOf t = .command cmdType data::rest

section Rules

variable {packet : FilePacket} {α : Type}

theorem connected_tail {e : Happening} {t : List Happening} (h : Connected packet (e::t)) :
    Connected packet t :=
  ⟨fun r hr => h.received r (List.mem_cons_of_mem e hr),
    fun p hp => h.sent p (List.mem_cons_of_mem e hp)⟩

theorem packetsOf_silent {o : Op} {r : o.Res} {t : List Happening} (ho : o.tells = none) :
    packetsOf (⟨o,r⟩::t) = packetsOf t :=
  List.filterMap_cons_none (by exact ho)

theorem undisturbed_silent {sha256sum : Text} {o : Op} {r : o.Res} {t : List Happening}
    (ho : o.tells = none) : Undisturbed sha256sum (⟨o,r⟩::t) ↔
      ¬Upsets sha256sum ⟨o,r⟩ ∧ Undisturbed sha256sum t := by
  have hbefore : (⟨o,r⟩::t).takeWhile (fun e : Happening => e.1.tells.isNone) =
      ⟨o,r⟩::t.takeWhile (fun e : Happening => e.1.tells.isNone) :=
    List.takeWhile_cons_of_pos (by simp [ho])
  rw [Undisturbed,hbefore,List.forall_mem_cons]
  rfl

theorem blunt_text {cmdType : CmdType} {data : Text} {k : Bool → Server Unit} :
    Blunt (.op (.send (.command cmdType data)) k) := by
  rintro t ⟨r,t',rfl,_⟩
  exact ⟨cmdType,data,packetsOf t',rfl⟩

theorem blunt_sendMsg (msg : Text) : Blunt (sendMsg msg) := blunt_text

theorem fair_op {o : Op} {k : o.Res → Server Unit} (ho : o.tells = none)
    (hfair : ∀ r, ¬Upsets packet.hash ⟨o,r⟩ → Fair packet (k r))
    (hblunt : ∀ r, Upsets packet.hash ⟨o,r⟩ → Blunt (k r)) : Fair packet (perform o >>= k) := by
  rintro t ⟨r,t',rfl,hr⟩ hc
  rw [packetsOf_silent ho,undisturbed_silent ho]
  by_cases hu : Upsets packet.hash ⟨o,r⟩
  · obtain ⟨cmdType,data,rest,he⟩ := hblunt r hu t' hr
    rw [he]
    exact ⟨nofun,fun h => absurd hu h.1⟩
  · rw [and_iff_right hu]
    exact hfair r hu t' hr (connected_tail hc)

theorem fair_calm {o : Op} {k : o.Res → Server Unit} (ho : o.tells = none)
    (hu : ∀ r, ¬Upsets packet.hash ⟨o,r⟩) (hk : ∀ r, Fair packet (k r)) :
    Fair packet (perform o >>= k) :=
  fair_op ho (fun r _ => hk r) fun r h => absurd h (hu r)

theorem fair_handshake {p : FilePacket} {k : Bool → Server Unit}
    (hk : ∀ t, (k true).Traces t () → Orderly packet.hash (.file p::packetsOf t)) :
    Fair packet (.op (.send (.file p)) k) := by
  rintro t ⟨r,t',rfl,hr⟩ hc
  rcases (r : Bool) with _ | _
  · exact absurd List.mem_cons_self (hc.sent (.file p))
  · refine iff_of_true (hk t' hr) ?_
    rintro e he
    cases he

theorem orderly_answers {p : FilePacket} {q : Server α} {a : α} (hq : Answers .command q)
    (hp : p.hash ≠ packet.hash) {t : List Happening} (h : q.Traces t a) :
    Orderly packet.hash (.file p::packetsOf t) := by
  have hemits : Emits q (packetsOf t) a := Program.traces_emits q h
  obtain ⟨o,_,hgood,he⟩ := Program.once_emits tells_of_silent q hq hemits
  rw [he]
  cases o with
  | send r =>
    cases r with
    | command cmdType data => exact .answered p cmdType data hp
    | _ => cases hgood
  | _ => exact hgood.elim

theorem orderly_mute {p : FilePacket} {q : Server α} {a : α} (hq : Mute q)
    (hp : p.hash = packet.hash) {t : List Happening} (h : q.Traces t a) :
    Orderly packet.hash (.file p::packetsOf t) := by
  have hemits : Emits q (packetsOf t) a := Program.traces_emits q h
  rw [Program.silent_emits q (mute_tells hq) hemits]
  exact .instant p hp

end Rules

section Transfer

theorem mute_writeFileFull (buf : Content) (passes total : ℕ) : Mute (writeFileFull buf passes total) := by
  induction passes generalizing total with
  | zero => trivial
  | succ passes ih =>
    unfold writeFileFull
    split
    · refine mute_bind (mute_perform Bool.false_ne_true) fun n => ?_
      split
      · trivial
      · exact ih _
    · trivial

theorem mute_receiveMapped (localSize remaining : ℤ) (passes k : ℕ) :
    Mute (receiveMapped localSize remaining passes k) := by
  induction passes generalizing k with
  | zero => trivial
  | succ passes ih =>
    unfold receiveMapped
    split
    · refine mute_bind (mute_perform Bool.false_ne_true) fun n => ?_
      split
      · trivial
      · exact ih _
    · trivial

theorem mute_receiveBuffered (remaining : ℤ) (passes k : ℕ) :
    Mute (receiveBuffered remaining passes k) := by
  induction passes generalizing k with
  | zero => trivial
  | succ passes ih =>
    unfold receiveBuffered
    split
    · refine mute_bind (mute_perform Bool.false_ne_true) fun buf => ?_
      split
      · trivial
      · refine mute_bind (mute_writeFileFull _ _ _) fun done => ?_
        cases done with
        | false => trivial
        | true => exact ih _
    · trivial

theorem answers_reply (msg : Text) : Answers .command (sendMsg msg >>= fun _ => close) :=
  Program.once_bind _ _ (answers_sendMsg msg) fun _ => ⟨nofun,fun _ => trivial⟩

variable {ctx : ClientContext} {fullPath fileName : Text} {packet : FilePacket} {localSize : ℤ}

theorem answers_completeUpload : Answers .command (completeUpload ctx fullPath fileName packet) := by
  refine answers_bind (finishUploadDbWork_uses _ (fun _ _ => nofun) nofun (fun _ => nofun) _ _) fun done => ?_
  cases done <;> exact answers_reply _

theorem answers_endUpload (receivedCount : ℕ) :
    Answers .command (endUpload ctx fullPath fileName packet localSize receivedCount) := by
  unfold endUpload
  split
  · exact answers_bind (mute_perform nofun) fun _ => answers_reply _
  · exact answers_completeUpload

theorem answers_receiveContent :
    Answers .command (receiveContent ctx fullPath fileName packet localSize) := by
  unfold receiveContent
  split
  · refine answers_bind (mute_perform nofun) fun (mapped : Bool) => ?_
    cases mapped with
    | false => exact answers_reply _
    | true => exact answers_bind (mute_receiveMapped _ _ _ _) fun k => answers_endUpload k
  · refine answers_bind (mute_perform nofun) fun (placed : Bool) => ?_
    cases placed with
    | false => exact answers_reply _
    | true =>
      refine answers_bind (mute_receiveBuffered _ _ _) fun r => ?_
      cases r with
      | none => exact answers_reply _
      | some k => exact answers_endUpload k

end Transfer

section Upload

variable {ctx : ClientContext} {arg fullPath fileName : Text} {packet : FilePacket}

theorem fair_resumeUpload (hhash : packet.hash ≠ []) (localSize : ℤ) :
    Fair packet (resumeUpload ctx arg fullPath fileName packet localSize) := by
  refine fair_handshake fun t h => ?_
  refine orderly_answers (q := _) ?_ (Ne.symm hhash) h
  change Answers .command (if packet.fileSize-localSize ≤ 0 then
    completeUpload ctx fullPath fileName packet else _)
  split
  · exact answers_completeUpload
  · refine answers_bind (mute_perform nofun) fun (extended : Bool) => ?_
    cases extended with
    | false => exact answers_reply _
    | true =>
      rw [if_pos rfl]
      split
      · exact answers_completeUpload
      · exact answers_receiveContent

theorem fair_storePath {f : Option Text → Server Unit}
    (hnone : Blunt (f none))
    (hsome : ∀ path, Fair packet (f (some path))) :
    Fair packet (buildStoreFilePath packet.hash >>= f) := by
  refine fair_op (o := .storeDir) rfl (fun (dir : Option Text) hdir => ?_)
    fun (dir : Option Text) hdir => ?_
  · cases dir with
    | none => exact absurd rfl hdir
    | some d =>
      have hpath : bounded maxPathLen (d ++ '/'::packet.hash) ≠ none := hdir
      cases hb : bounded maxPathLen (d ++ '/'::packet.hash) with
      | none => exact absurd hb hpath
      | some path =>
        have h := hsome path
        rw [← hb] at h
        exact h
  · cases dir with
    | none => exact hnone
    | some d =>
      have hpath : bounded maxPathLen (d ++ '/'::packet.hash) = none := hdir
      have h := hnone
      rw [← hpath] at h
      exact h

theorem fair_checkStore {size : ℤ} {f : Option Bool → Server Unit} (hnone : Blunt (f none))
    (htrue : Fair packet (f (some true))) (hfalse : Fair packet (f (some false))) :
    Fair packet (checkStoreFileReady packet.hash size >>= f) := by
  unfold checkStoreFileReady
  rw [bind_assoc]
  refine fair_storePath hnone fun path => ?_
  dsimp only
  rw [bind_assoc]
  refine fair_op (o := .stat _) rfl (fun (result : StatResult) h => ?_)
    fun (result : StatResult) h => ?_
  · cases result with
    | missing => exact hfalse
    | failed => exact absurd rfl h
    | regular found =>
      change Fair packet (f (some (decide (found = size))))
      cases decide (found = size) with
      | false => exact hfalse
      | true => exact htrue
  · cases result with
    | failed => exact hnone
    | _ => cases h

theorem fair_uploadContent (hhash : packet.hash ≠ []) :
    Fair packet (uploadContent ctx arg fullPath fileName packet) := by
  refine fair_storePath (blunt_sendMsg _) fun path => ?_
  refine fair_op (o := .openUpload _) rfl (fun (opened : Bool) h => ?_) fun (opened : Bool) h => ?_
  · cases opened with
    | false => exact absurd rfl h
    | true =>
      rw [if_pos rfl]
      refine fair_calm (o := .fstat) rfl (fun _ => id) fun st => ?_
      split
      · exact fair_calm (o := .ftruncate _) rfl (fun _ => id) fun _ => fair_resumeUpload hhash 0
      · exact fair_resumeUpload hhash _
  · cases opened with
    | false => exact blunt_sendMsg _
    | true => cases h

theorem fair_instantUpload (hlen : packet.hash.length ≤ 64) (existedFileId : ℕ) :
    Fair packet (instantUpload ctx arg fullPath fileName packet existedFileId) := by
  have hsame : (initFilePacket .puts arg packet.fileSize 0 (some packet.hash)).hash = packet.hash :=
    List.take_of_length_le hlen
  refine fair_op (o := .sql (.createFileNode _ _ _ _ _)) rfl (fun (made : Bool) h => ?_)
    fun (made : Bool) h => ?_
  · cases made with
    | false => exact absurd rfl h
    | true =>
      refine fair_op (o := .sql (.addRefCount _)) rfl (fun (counted : Bool) h => ?_)
        fun (counted : Bool) h => ?_
      · cases counted with
        | false => exact absurd rfl h
        | true => exact fair_handshake fun t ht => orderly_mute (q := pure ()) trivial hsame ht
      · cases counted with
        | false => exact blunt_sendMsg _
        | true => cases h
  · cases made with
    | false => exact blunt_sendMsg _
    | true => cases h

theorem fair_storeContent (hhash : packet.hash ≠ []) (hlen : packet.hash.length ≤ 64) :
    Fair packet (storeContent ctx arg fullPath fileName packet) := by
  refine fair_calm (o := .sql (.fileBySha256 _)) rfl (fun _ => id)
    fun (found : Option (ℕ × ℤ)) => ?_
  rcases found with _ | ⟨existedFileId,existedFileSize⟩
  · exact fair_uploadContent hhash
  · exact fair_checkStore (blunt_sendMsg _) (fair_instantUpload hlen existedFileId)
      (fair_uploadContent hhash)

theorem fair_received {k : Option FilePacket → Server Unit} (hk : Fair packet (k (some packet))) :
    Fair packet (perform .recvFile >>= k) := by
  rintro t ⟨r,t',rfl,hr⟩ hc
  obtain rfl : r = some packet := hc.received r List.mem_cons_self
  have hcalm : ¬Upsets packet.hash ⟨.recvFile,some packet⟩ := id
  rw [packetsOf_silent rfl,undisturbed_silent rfl,and_iff_right hcalm]
  exact hk t' hr (connected_tail hc)

theorem fair_getNode {userId : ℤ} {path : Text} {f : Option (ℕ × ℕ) → Server Unit}
    (hf : ∀ r, Fair packet (f r)) : Fair packet (daoGetNodeByPath userId path >>= f) := by
  unfold daoGetNodeByPath
  split
  · exact hf _
  · exact fair_calm (o := .sql _) rfl (fun _ => id) hf

theorem valid_short {name : Text} (h : isValidVfsName name = true) : name.length < 256 := by
  have hv : name.length ≠ 0 ∧ name.length ≤ maxVfsNameLen := of_decide_eq_true h
  unfold maxVfsNameLen at hv
  omega

theorem fair_failPuts (hhash : packet.hash ≠ []) (msg : Text) :
    Fair packet (failPutsRequest fileName msg) := by
  refine fair_received ?_
  refine fair_handshake fun t h => ?_
  exact orderly_answers (q := sendMsg _) (answers_sendMsg _) (Ne.symm hhash) h

theorem fair_handlePuts (hpath : buildFullVirtualPath fullPathLen ctx arg = some fullPath)
    (hbase : baseName fullPath = arg) (hvalid : isValidVfsName arg = true)
    (hhash : packet.hash ≠ []) (hlen : packet.hash.length ≤ 64) :
    Fair packet (handlePuts ctx arg) := by
  refine fair_received ?_
  rw [hpath]
  dsimp only
  have hshort : arg.length < 256 := valid_short hvalid
  rw [extractFileName,strcpy,hbase,if_pos hshort]
  change Fair packet (if isValidVfsName arg = true then _ else _)
  rw [if_pos hvalid]
  refine fair_getNode fun found => ?_
  cases found with
  | some node =>
    refine fair_handshake fun t h => ?_
    exact orderly_answers (q := sendMsg _) (answers_sendMsg _) (Ne.symm hhash) h
  | none =>
    dsimp only
    rw [if_neg hhash]
    exact fair_storeContent hhash hlen

theorem fair_serveUpload {granted : ClientContext} {userId : ℤ}
    (hticket : buildTransferFullPath granted arg fullPathLen = some fullPath)
    (hvalid : isValidVfsName arg = true) (hhash : packet.hash ≠ [])
    (hlen : packet.hash.length ≤ 64) : Fair packet (serveUpload userId fullPath) := by
  obtain ⟨-,hcheck,hslash,hfit⟩ := transferFullPath_eq hticket
  obtain ⟨-,dir,hdir,rfl⟩ := transferFullPath_parts hticket
  have hbase : baseName (dir ++ '/'::arg) = arg := by
    have hlast : splitLast '/' (dir ++ '/'::arg) = some (dir,arg) :=
      splitLast_some.mpr ⟨rfl,hslash⟩
    rw [baseName,hlast]
  have hputs : ∀ ctx : ClientContext,
      (if ctx.currentPath = "/".toList then '/'::arg else ctx.currentPath ++ '/'::arg) =
        dir ++ '/'::arg → Fair packet (handlePuts ctx arg) := by
    intro ctx hjoin
    refine fair_handlePuts ?_ hbase hvalid hhash hlen
    rw [buildFullVirtualPath,if_pos ⟨hcheck,hslash⟩,hjoin]
    exact bounded_eq_some.mpr ⟨rfl,hfit⟩
  unfold serveUpload buildTransferContext
  cases hsplit : splitFullPath (dir ++ '/'::arg) 256 fileNameLen with
  | none => exact fair_failPuts hhash _
  | some parts =>
    obtain ⟨parent,name⟩ := parts
    obtain ⟨rfl,hparent⟩ := splitFullPath_parts hslash (valid_short hvalid) hsplit
    dsimp only
    split
    · rename_i hroot
      refine hputs _ ?_
      rcases hparent with ⟨rfl,rfl⟩ | ⟨_,rfl,_⟩
      · rfl
      · exact absurd hroot hdir
    · rename_i hroot
      rw [bind_assoc]
      refine fair_getNode fun found => ?_
      rcases found with _ | ⟨dirId,nodeType⟩
      · exact fair_failPuts hhash _
      · dsimp only
        split
        · exact fair_failPuts hhash _
        · refine hputs _ ?_
          rcases hparent with ⟨rfl,rfl⟩ | ⟨_,rfl,hlen'⟩
          · exact absurd rfl hroot
          · rw [List.take_of_length_le (by omega),if_neg hroot]

end Upload

/-- The server answers an upload in the order in which the client reads exactly
when nothing the handshake needs has failed before the first packet. -/
theorem upload_replies_iff (granted : ClientContext) (arg fullPath : Text) (userId : ℤ)
    (packet : FilePacket) (t : List Happening)
    (hticket : buildTransferFullPath granted arg fullPathLen = some fullPath)
    (hname : isValidVfsName arg = true) (hhash : packet.hash ≠ [])
    (hlen : packet.hash.length ≤ 64) (run : (serveUpload userId fullPath).Traces t ())
    (hconn : Connected packet t) :
    Orderly packet.hash (packetsOf t) ↔ Undisturbed packet.hash t :=
  fair_serveUpload hticket hname hhash hlen t run hconn

namespace UploadOfA

def packet : FilePacket := ⟨.puts,1,0,"a".toList,List.replicate 64 '0'⟩

/-- The content is there already, and the link is made. -/
def instant : List Happening :=
  [⟨.recvFile,some packet⟩,⟨.sql (.nodeByPath 1 "/a".toList),none⟩,
    ⟨.sql (.fileBySha256 packet.hash),some (5,1)⟩,⟨.storeDir,some "s".toList⟩,
    ⟨.stat ("s/".toList ++ packet.hash),.regular 1⟩,
    ⟨.sql (.createFileNode 1 "/a".toList 0 "a".toList 5),true⟩,⟨.sql (.addRefCount 5),true⟩,
    ⟨.send (.file (initFilePacket .puts "a".toList 1 0 (some packet.hash))),true⟩]

/-- The content is new, and the store file cannot be opened. -/
def unopened : List Happening :=
  [⟨.recvFile,some packet⟩,⟨.sql (.nodeByPath 1 "/a".toList),none⟩,
    ⟨.sql (.fileBySha256 packet.hash),none⟩,⟨.storeDir,some "s".toList⟩,
    ⟨.openUpload ("s/".toList ++ packet.hash),false⟩,
    ⟨.send (initCommandPacket .reply "服务端创建文件失败".toList),true⟩]

end UploadOfA

open UploadOfA in
theorem instant_upload_replies : Orderly packet.hash (packetsOf instant) := by
  have hrun : (serveUpload 1 "/a".toList).follow instant = some () := by decide +kernel
  have hconn : Connected packet instant := by
    constructor
    · intro r hr
      simpa [instant] using hr
    · intro p hp
      simp [instant] at hp
  refine (upload_replies_iff ⟨1,"/".toList,0⟩ "a".toList "/a".toList 1 packet instant (by decide)
    (by decide) (by decide) (by decide) (Program.follow_traces _ hrun) hconn).mpr ?_
  intro e he
  have hbefore : instant.takeWhile (fun e => e.1.tells.isNone) = instant.take 7 := rfl
  rw [hbefore] at he
  simp only [instant,List.take,List.mem_cons,List.not_mem_nil,or_false] at he
  rcases he with rfl | rfl | rfl | rfl | rfl | rfl | rfl <;> unfold Upsets <;> decide +kernel

open UploadOfA in
/-- The client waits for a file packet and is sent a text. -/
theorem unopened_upload_replies : ¬∀ (granted : ClientContext) (arg fullPath : Text) (userId : ℤ)
    (packet : FilePacket) (t : List Happening),
    buildTransferFullPath granted arg fullPathLen = some fullPath → isValidVfsName arg = true →
      packet.hash ≠ [] → packet.hash.length ≤ 64 → (serveUpload userId fullPath).Traces t () →
        Connected packet t → Orderly packet.hash (packetsOf t) := by
  intro hall
  have hrun : (serveUpload 1 "/a".toList).follow unopened = some () := by decide +kernel
  have hconn : Connected packet unopened := by
    constructor
    · intro r hr
      simpa [unopened] using hr
    · intro p hp
      simp [unopened] at hp
  have horderly := hall ⟨1,"/".toList,0⟩ "a".toList "/a".toList 1 packet unopened (by decide)
    (by decide) (by decide) (by decide) (Program.follow_traces _ hrun) hconn
  have hpackets : packetsOf unopened =
      [initCommandPacket .reply "服务端创建文件失败".toList] := rfl
  rw [hpackets] at horderly
  cases horderly

end WindCloud
