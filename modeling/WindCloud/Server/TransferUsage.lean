import WindCloud.Server.Download
import WindCloud.Server.UploadTables

/-!
# What a transfer connection issues

Apart from operations that touch neither the tables nor the names of the store,
an upload looks its node up and enters it, and a download looks its file up.
-/

set_option autoImplicit false

namespace WindCloud
open CString Effect

namespace Statement

/-- The statements of transfer connections. -/
def transfers : Statement → Bool
  | nodeByPath _ _ | fileInfoByPath _ _ | fileInfoById _ | createFileNode _ _ _ _ _ => true
  | t => t.enters

end Statement

namespace Op

def transferring : Op → Bool
  | .sql t => t.transfers
  | .unlink _ => false
  | _ => true

end Op

theorem transferring_tableless (o : Op) (ho : o.tableless = true) : o.transferring = true := by
  cases o <;> first | rfl | cases ho

theorem perform_uses {allowed : Op → Prop} {o : Op} (ho : allowed o) : (perform o).Uses allowed :=
  ⟨ho,fun _ => trivial⟩

section Uploads

variable {allowed : Op → Prop} (hrest : ∀ o : Op, o.tableless = true → allowed o)
  (hsql : ∀ t : Statement, t.enters = true → allowed (.sql t))

include hrest in
theorem tableless_uses {α : Type} {p : Server α} (hp : Tableless p) : p.Uses allowed :=
  Program.uses_mono hrest hp

include hrest in
theorem sendMsg_uses (msg : Text) : (sendMsg msg).Uses allowed :=
  tableless_uses hrest ⟨rfl,fun _ => trivial⟩

include hrest in
theorem refuseUpload_uses (msg : Text) : (sendMsg msg >>= fun _ => close).Uses allowed :=
  tableless_uses hrest ⟨rfl,fun _ => ⟨rfl,fun _ => trivial⟩⟩

include hrest in
theorem failPutsRequest_uses (fileName msg : Text) : (failPutsRequest fileName msg).Uses allowed := by
  refine ⟨hrest _ rfl,fun r => ?_⟩
  cases (r : Option FilePacket) with
  | none => trivial
  | some packet => exact ⟨hrest _ rfl,fun _ => ⟨hrest _ rfl,fun _ => trivial⟩⟩

include hrest hsql

section Content

variable {ctx : ClientContext} {fullPath fileName : Text}
  (hnode : MayEnter allowed ctx fullPath fileName)

include hnode

theorem endUpload_uses (packet : FilePacket) (localSize : ℤ) (k : ℕ) :
    (endUpload ctx fullPath fileName packet localSize k).Uses allowed := by
  unfold endUpload
  split
  · exact ⟨hrest _ rfl,fun _ => refuseUpload_uses hrest _⟩
  · exact completeUpload_uses allowed hsql (hrest _ rfl) (fun _ => hrest _ rfl) (hrest _ rfl) hnode _

theorem receiveContent_uses (packet : FilePacket) (localSize : ℤ) :
    (receiveContent ctx fullPath fileName packet localSize).Uses allowed := by
  unfold receiveContent
  split
  · refine Program.uses_bind _ _ (perform_uses (hrest _ rfl)) fun done => ?_
    cases (done : Bool) with
    | false => exact refuseUpload_uses hrest _
    | true =>
      exact Program.uses_bind _ _ (tableless_uses hrest (tableless_receiveMapped _ _ _ _))
        fun k => endUpload_uses hrest hsql hnode _ _ k
  · refine Program.uses_bind _ _ (perform_uses (hrest _ rfl)) fun done => ?_
    cases (done : Bool) with
    | false => exact refuseUpload_uses hrest _
    | true =>
      refine Program.uses_bind _ _ (tableless_uses hrest (tableless_receiveBuffered _ _ _))
        fun r => ?_
      cases r with
      | none => exact refuseUpload_uses hrest _
      | some k => exact endUpload_uses hrest hsql hnode _ _ k

theorem resumeUpload_uses (arg : Text) (packet : FilePacket) (localSize : ℤ) :
    (resumeUpload ctx arg fullPath fileName packet localSize).Uses allowed := by
  have hcomplete : (completeUpload ctx fullPath fileName packet).Uses allowed :=
    completeUpload_uses allowed hsql (hrest _ rfl) (fun _ => hrest _ rfl) (hrest _ rfl) hnode _
  refine ⟨hrest _ rfl,fun done => ?_⟩
  cases (done : Bool) with
  | false => exact tableless_uses hrest tableless_close
  | true =>
    simp only [Program.bind,if_true]
    split
    · exact hcomplete
    · refine ⟨hrest _ rfl,fun done => ?_⟩
      cases (done : Bool) with
      | false => exact refuseUpload_uses hrest _
      | true =>
        simp only [Program.bind,if_true]
        split
        · exact hcomplete
        · exact receiveContent_uses hrest hsql hnode _ _

theorem uploadContent_uses (arg : Text) (packet : FilePacket) :
    (uploadContent ctx arg fullPath fileName packet).Uses allowed := by
  refine Program.uses_bind _ _ (buildStoreFilePath_uses allowed (hrest _ rfl) _) fun r => ?_
  cases r with
  | none => exact sendMsg_uses hrest _
  | some realPath =>
    refine ⟨hrest _ rfl,fun done => ?_⟩
    cases (done : Bool) with
    | false => exact sendMsg_uses hrest _
    | true =>
      refine ⟨hrest _ rfl,fun st => ?_⟩
      simp only [Program.bind]
      split
      · exact ⟨hrest _ rfl,fun _ => resumeUpload_uses hrest hsql hnode _ _ _⟩
      · exact resumeUpload_uses hrest hsql hnode _ _ _

theorem storeContent_uses (arg : Text) (packet : FilePacket) :
    (storeContent ctx arg fullPath fileName packet).Uses allowed := by
  have hfind : (daoFileFindBySha256 packet.hash).Uses allowed := perform_uses (hsql _ rfl)
  refine Program.uses_bind _ _ hfind fun r => ?_
  rcases (r : Option (ℕ × ℤ)) with _ | ⟨fileId,size⟩
  · exact uploadContent_uses hrest hsql hnode _ _
  · refine Program.uses_bind _ _ (checkStoreFileReady_uses allowed (hrest _ rfl)
      (fun _ => hrest _ rfl) _ _) fun x => ?_
    rcases x with _ | _ | _
    · exact sendMsg_uses hrest _
    · exact uploadContent_uses hrest hsql hnode _ _
    · exact instantUpload_uses allowed hsql (fun _ => hrest _ rfl) hnode _ _ _

end Content

variable (hlook : ∀ userId path, allowed (.sql (.nodeByPath userId path)))

include hlook

theorem handlePuts_uses {ctx : ClientContext} {arg : Text}
    (hnode : ∀ path, buildFullVirtualPath fullPathLen ctx arg = some path →
      MayEnter allowed ctx path (baseName path)) : (handlePuts ctx arg).Uses allowed := by
  refine ⟨hrest _ rfl,fun r => ?_⟩
  rcases (r : Option FilePacket) with _ | packet
  · exact sendMsg_uses hrest _
  simp only [Program.bind]
  split
  · exact sendMsg_uses hrest _
  rename_i path hpath
  unfold extractFileName strcpy
  split
  · dsimp only [Pure.pure,Bind.bind,Program.bind]
    split
    · refine Program.uses_bind _ _ (getNodeByPath_uses allowed hlook _ _) fun r => ?_
      cases r with
      | some node => exact ⟨hrest _ rfl,fun _ => sendMsg_uses hrest _⟩
      | none =>
        dsimp only
        split
        · exact sendMsg_uses hrest _
        · exact storeContent_uses hrest hsql (hnode path hpath) _ _
    · exact sendMsg_uses hrest _
  · exact ⟨hrest _ rfl,fun r => r.elim⟩

omit hsql in
omit hrest in
theorem buildTransferContext_uses (userId : ℤ) (fullPath : Text) :
    (buildTransferContext userId fullPath).Uses allowed := by
  unfold buildTransferContext
  split
  · trivial
  split
  · trivial
  refine Program.uses_bind _ _ (getNodeByPath_uses allowed hlook _ _) fun r => ?_
  rcases r with _ | ⟨dirId,nodeType⟩
  · trivial
  · dsimp only
    split <;> trivial

theorem serveUpload_uses (hnode : ∀ ctx path fileName, MayEnter allowed ctx path fileName)
    (userId : ℤ) (fullPath : Text) : (serveUpload userId fullPath).Uses allowed := by
  refine Program.uses_bind _ _ (buildTransferContext_uses hlook userId fullPath) fun r => ?_
  rcases r with _ | ⟨ctx,fileName⟩
  · exact failPutsRequest_uses hrest _ _
  · exact handlePuts_uses hrest hsql hlook fun _ _ => hnode _ _ _

end Uploads

section Downloads

theorem tableless_off (n : ℤ) : Tableless (off n) := by
  unfold off
  split
  · trivial
  · exact ⟨rfl,fun r => r.elim⟩

theorem tableless_sendfileLoop (passes : ℕ) (currentOffset remaining : ℤ) :
    Tableless (sendfileLoop passes currentOffset remaining) := by
  induction passes generalizing currentOffset remaining with
  | zero => trivial
  | succ passes ih =>
    unfold sendfileLoop
    split
    · refine Program.uses_bind _ _ (perform_uses rfl) fun sent => ?_
      split
      · trivial
      · exact Program.uses_bind _ _ (tableless_off _) fun _ => ih _ _
    · trivial

theorem tableless_sendFull (pos len : ℤ) (passes total : ℕ) :
    Tableless (sendFull pos len passes total) := by
  induction passes generalizing total with
  | zero => trivial
  | succ passes ih =>
    unfold sendFull
    split
    · refine Program.uses_bind _ _ (perform_uses rfl) fun sent => ?_
      split
      · trivial
      · exact ih _
    · trivial

theorem tableless_sendMappedLoop (offset remaining : ℤ) (passes sentCount : ℕ) :
    Tableless (sendMappedLoop offset remaining passes sentCount) := by
  induction passes generalizing sentCount with
  | zero => trivial
  | succ passes ih =>
    unfold sendMappedLoop
    split
    · refine Program.uses_bind _ _ (tableless_off _) fun _ => ?_
      refine Program.uses_bind _ _ (tableless_sendFull _ _ _ _) fun done => ?_
      cases done with
      | false => trivial
      | true => exact ih _
    · trivial

theorem tableless_sendFrom (logicalTotalSize offset fileSize : ℤ) :
    Tableless (sendFrom logicalTotalSize offset fileSize) := by
  unfold sendFrom
  split
  · refine Program.uses_bind _ _ (tableless_off _) fun remaining => ?_
    split
    · trivial
    · refine Program.uses_bind _ _ (perform_uses rfl) fun done => ?_
      cases (done : Bool) with
      | false => trivial
      | true => exact tableless_sendMappedLoop _ _ _ _
  · exact Program.uses_bind _ _ (tableless_off _) fun _ => tableless_sendfileLoop _ _ _

theorem tableless_sendRange (arg : Text) (effectiveStart effectiveEnd : ℤ) :
    Tableless (sendRange arg effectiveStart effectiveEnd) := by
  refine Program.uses_bind _ _ (tableless_off _) fun span => ?_
  refine Program.uses_bind _ _ (tableless_off _) fun logicalTotalSize => ?_
  refine Program.uses_bind _ _ (perform_uses rfl) fun done => ?_
  cases (done : Bool) with
  | false => exact tableless_close
  | true =>
    refine Program.uses_bind _ _ (perform_uses rfl) fun r => ?_
    rcases (r : Option FilePacket) with _ | packet
    · exact tableless_close
    · refine Program.uses_bind _ _ (tableless_off _) fun offset => ?_
      refine Program.uses_bind _ _ (tableless_off _) fun fileSize => ?_
      exact Program.uses_bind _ _ (tableless_sendFrom _ _ _) fun _ => tableless_close

theorem tableless_serveFile (arg : Text) (useRange : Bool) (rangeStart rangeEnd : ℤ) :
    Tableless (serveFile arg useRange rangeStart rangeEnd) := by
  have hfail : Tableless (close >>= fun _ => sendGetsFailedPacket arg) :=
    ⟨rfl,fun _ => ⟨rfl,fun _ => trivial⟩⟩
  refine Program.uses_bind _ _ (perform_uses rfl) fun r => ?_
  rcases (r : Option ℤ) with _ | size
  · exact hfail
  · refine Program.uses_bind _ _ (tableless_off _) fun effectiveEnd => ?_
    split
    · split
      · exact hfail
      · exact tableless_sendRange _ _ _
    · exact tableless_sendRange _ _ _

theorem serveDownload_transfers (ctx : ClientContext) (fileName : Text) (rangeStart rangeEnd : ℤ) :
    (serveDownload ctx fileName rangeStart rangeEnd).Uses fun o => o.transferring = true := by
  have hfail : (sendGetsFailedPacket fileName).Uses fun o => o.transferring = true :=
    ⟨rfl,fun _ => trivial⟩
  have hcommon : ∀ useRange first last, (handleGetsCommon ctx fileName useRange first last).Uses
      fun o => o.transferring = true := by
    intro useRange first last
    unfold handleGetsCommon
    split
    · exact hfail
    refine Program.uses_bind _ _ (getFileInfoByPath_uses (fun o => o.transferring = true)
      (fun _ _ => rfl) _ _) fun r => ?_
    rcases r with _ | ⟨_,fileId⟩
    · exact hfail
    have hinfo : (daoFileGetInfoById fileId).Uses fun o => o.transferring = true := perform_uses rfl
    refine Program.uses_bind _ _ hinfo fun r => ?_
    rcases r with _ | ⟨h,_⟩
    · exact hfail
    refine Program.uses_bind _ _ (buildStoreFilePath_uses (fun o => o.transferring = true) rfl _)
      fun r => ?_
    cases r with
    | none => exact hfail
    | some realPath =>
      refine Program.uses_bind _ _ (perform_uses rfl) fun done => ?_
      cases (done : Bool) with
      | false => exact hfail
      | true => exact tableless_uses transferring_tableless (tableless_serveFile _ _ _ _)
  unfold serveDownload
  split <;> exact hcommon _ _ _

/-- A transfer connection keeps to the operations of transfers. -/
theorem handleTransferRequest_transfers :
    handleTransferRequest.Uses fun o => o.transferring = true := by
  have henters : ∀ t : Statement, t.enters = true → (Op.sql t).transferring = true := by
    intro t ht
    cases t <;> first | rfl | cases ht
  refine Program.uses_bind _ _ (perform_uses rfl) fun r => ?_
  rcases (r : Option Text) with _ | ticket
  · trivial
  have hverify : Tableless (verifyAndConsumeTransferTicket ticket fullPathLen 64 16) := by
    refine Program.uses_bind _ _ (perform_uses rfl) fun now => ?_
    have hread : Tableless (jwtVerifyTransferTicket ticket fullPathLen 64 16 33) := by
      unfold jwtVerifyTransferTicket
      split
      · trivial
      · refine Program.uses_bind _ _ (perform_uses rfl) fun r => ?_
        rcases (r : Option (List JwtClaim)) with _ | _ <;> trivial
    refine Program.uses_bind _ _ hread fun r => ?_
    rcases r with _ | ⟨grant,ticketId⟩
    · trivial
    · refine Program.uses_bind _ _ (perform_uses rfl) fun done => ?_
      cases (done : Bool) <;> trivial
  refine Program.uses_bind _ _ (tableless_uses transferring_tableless hverify) fun r => ?_
  rcases r with _ | g
  · trivial
  refine Program.uses_bind _ _ (getCurrentServerAddress_uses (fun o => o.transferring = true) rfl
    _ _) fun r => ?_
  rcases r with _ | ⟨ip,port⟩
  · trivial
  dsimp only
  split
  · refine Program.uses_bind _ _ (buildTransferContext_uses (fun _ _ => rfl) _ _) fun r => ?_
    rcases r with _ | ⟨ctx,fileName⟩
    · dsimp only
      split
      · exact ⟨rfl,fun _ => trivial⟩
      split
      · exact failPutsRequest_uses transferring_tableless _ _
      · trivial
    · dsimp only
      split
      · exact serveDownload_transfers _ _ _ _
      split
      · exact handlePuts_uses transferring_tableless henters (fun _ _ => rfl) fun _ _ _ => rfl
      · trivial
  · trivial

end Downloads

namespace Op

/-- Operations that run no statement and send no command packet. -/
def hushed : Op → Bool
  | .sql _ | .send (.command _ _) => false
  | _ => true

end Op

abbrev Hush {α : Type} (p : Server α) : Prop := p.Uses fun o => o.hushed = true

/-- The reply to an upload whose content has arrived but not its entries. -/
def unwritten : Packet := initCommandPacket .reply "上传失败：数据库写入失败".toList

section Walk

variable {ctx : ClientContext} {arg fullPath fileName : Text} {packet : FilePacket}

/-- An upload of content moves it, and either brings the tables up to date or
reports why not. -/
theorem upload_walk {P : Server Unit → Prop}
    (hbefore : ∀ {α : Type} (p : Server α) (f : α → Server Unit), Hush p → (∀ a, P (f a)) →
      P (p >>= f))
    (hreply : ∀ msg, initCommandPacket .reply msg ≠ unwritten →
      P (sendMsg msg) ∧ P (sendMsg msg >>= fun _ => close))
    (hclose : P close) (hcomplete : P (completeUpload ctx fullPath fileName packet)) :
    P (uploadContent ctx arg fullPath fileName packet) := by
  have hend : ∀ localSize k, P (endUpload ctx fullPath fileName packet localSize k) := by
    intro localSize k
    unfold endUpload
    split
    · exact hbefore _ _ ⟨rfl,fun _ => trivial⟩ fun _ => (hreply _ (by decide)).2
    · exact hcomplete
  have hreceive : ∀ localSize, P (receiveContent ctx fullPath fileName packet localSize) := by
    intro localSize
    unfold receiveContent
    split
    · refine hbefore _ _ ⟨rfl,fun _ => trivial⟩ fun done => ?_
      cases (done : Bool) with
      | false => exact (hreply _ (by decide)).2
      | true =>
        exact hbefore _ _ (receiveMapped_uses (fun o => o.hushed = true) (fun _ _ => rfl) _ _ _ _)
          fun k => hend _ k
    · refine hbefore _ _ ⟨rfl,fun _ => trivial⟩ fun done => ?_
      cases (done : Bool) with
      | false => exact (hreply _ (by decide)).2
      | true =>
        refine hbefore _ _ (receiveBuffered_uses (fun o => o.hushed = true) (fun _ => rfl)
          (fun _ => rfl) _ _ _) fun k => ?_
        cases k with
        | none => exact (hreply _ (by decide)).2
        | some k => exact hend _ k
  have hresume : ∀ localSize, P (resumeUpload ctx arg fullPath fileName packet localSize) := by
    intro localSize
    refine hbefore _ _ ⟨rfl,fun _ => trivial⟩ fun done => ?_
    cases (done : Bool) with
    | false => exact hclose
    | true =>
      rw [if_pos rfl]
      split
      · exact hcomplete
      refine hbefore _ _ ⟨rfl,fun _ => trivial⟩ fun done => ?_
      cases (done : Bool) with
      | false => exact (hreply _ (by decide)).2
      | true =>
        rw [if_pos rfl]
        split
        · exact hcomplete
        · exact hreceive _
  refine hbefore _ _ (buildStoreFilePath_uses (fun o => o.hushed = true) rfl _) fun r => ?_
  cases r with
  | none => exact (hreply _ (by decide)).1
  | some realPath =>
    refine hbefore _ _ ⟨rfl,fun _ => trivial⟩ fun done => ?_
    cases (done : Bool) with
    | false => exact (hreply _ (by decide)).1
    | true =>
      refine hbefore _ _ ⟨rfl,fun _ => trivial⟩ fun st => ?_
      split
      · exact hbefore _ _ ⟨rfl,fun _ => trivial⟩ fun _ => hresume _
      · exact hresume _

end Walk

end WindCloud
