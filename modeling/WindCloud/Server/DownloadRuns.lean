import WindCloud.Server.DownloadSafety
import WindCloud.Server.TicketRuns

/-!
# Downloads with a range ticket

From the request for a ticket to the transfer that presents it: the path in the
ticket is the one the transfer rebuilds, and the range in it is the one asked
for, so that the transfer takes the range branch and stays inside.
-/

set_option autoImplicit false

namespace WindCloud
open CString Effect Function

/-- A ticket that the answer to the request `arg` hands out, whatever the rest
of the system does meanwhile. -/
inductive Issued {κ : Type} [DecidableEq κ] (lib : Library) (ctx : ClientContext) (arg : Text) :
    Text → Prop
  | reply {i : κ} {w w' : World κ} {p : TransferTicketReply} {k : Bool → Server Unit}
      (reached : (server κ lib).disturbed.Reaches
        (Machine.Disturbance (fun _ _ => True) fun _ _ _ => True) i
        (handleGetsRangeTicketPrepare ctx arg) w (.op (.send (.ticket p)) k) w')
      (success : p.success = 1) : Issued lib ctx arg p.ticket

section Issuing

variable {κ : Type} [DecidableEq κ] {lib : Library} {i : κ} {α : Type}
  {G : Op → World κ → Prop} {w : World κ}

abbrev Issuing (lib : Library) (i : κ) (G : Op → World κ → Prop) (p : Server α)
    (Q : α → World κ → Prop) (w : World κ) : Prop :=
  (server κ lib).disturbed.guarded (Machine.Disturbance (fun _ _ => True) fun _ _ _ => True) i G
    p Q w

theorem issuing_uses {p : Server α} (hG : ∀ o w, o.isSend = false → G o w)
    (hp : p.Uses fun o => o.isSend = false) : Issuing lib i G p (fun _ _ => True) w :=
  Machine.guarded_uses (fun o s ho _ => hG o s ho) (fun _ _ _ _ _ _ _ _ _ => trivial) hp trivial

theorem issuing_ticket (g : Grant) (size : ℕ) (hG : ∀ o w, o.isSend = false → G o w) :
    Issuing lib i G (issueTransferTicket g size)
      (fun r _ => ∀ t, r = some t → t.length < size ∧ ∃ id, SignedAs lib id g t) w := by
  refine ⟨hG _ _ rfl,fun _ now w₁ _ _ => ?_⟩
  by_cases hbad : g.fullPath = [] ∨ g.sourceIp = [] ∨ g.sourcePort = [] ∨ size = 0
  · simp only [Program.bind,if_pos hbad]
    exact fun t ht => by cases ht
  simp only [Program.bind,if_neg hbad]
  refine ⟨hG _ _ rfl,fun _ r w₂ _ _ => ?_⟩
  rcases (r : Option (List ℕ)) with _ | bs
  · exact fun t ht => by cases ht
  refine ⟨hG _ _ rfl,fun _ now' w₃ _ _ => ?_⟩
  simp only [Program.bind]
  split
  · exact fun t ht => by cases ht
  refine ⟨hG _ _ rfl,fun c r w₄ _ hx => ?_⟩
  rcases (r : Option Text) with _ | t
  · exact fun t ht => by cases ht
  have ht : lib.encode (ticketParams g (Hex.hexLower bs) now') = some t := by
    obtain ⟨s,c⟩ := c
    change execute lib _ _ s c = _ at hx
    cases c <;> simp [execute] at hx
    exact hx.1
  simp only [Program.bind]
  cases hb : bounded size t with
  | none => exact fun t ht => by cases ht
  | some t' =>
    obtain ⟨rfl,hlt⟩ := bounded_eq_some.mp hb
    refine ⟨hG _ _ rfl,fun _ r w₅ _ _ => ?_⟩
    cases (r : Bool) with
    | false => exact fun t ht => by cases ht
    | true =>
      intro t' he
      cases he
      exact ⟨hlt,_,now',ht⟩

/-- A reply that reports success carries a token for the range asked for. -/
def Grants (lib : Library) (ctx : ClientContext) (arg : Text) (o : Op) (_ : World κ) : Prop :=
  ∀ p, o = .send (.ticket p) → p.success = 1 → ∃ r path id,
    parseGetsRangeTicketRequest arg fileNameLen 64 16 = some r ∧
    buildTransferFullPath ctx r.fileName fullPathLen = some path ∧
    SignedAs lib id (rangeGrant ctx r path) p.ticket

theorem issuing_refuse (ctx : ClientContext) (arg : Text) (message : String) :
    Issuing lib i (Grants lib ctx arg) (refuseTicket message) (fun _ _ => True) w := by
  refine ⟨fun p hp h1 => ?_,fun _ _ _ _ _ => trivial⟩
  cases hp
  cases h1

theorem issuing_prepare (ctx : ClientContext) (arg : Text) :
    Issuing lib i (Grants lib ctx arg) (handleGetsRangeTicketPrepare ctx arg)
      (fun _ _ => True) w := by
  have hG : ∀ (o : Op) (w : World κ), o.isSend = false → Grants lib ctx arg o w := by
    intro o w ho p hp
    subst hp
    cases ho
  unfold handleGetsRangeTicketPrepare
  cases hr : parseGetsRangeTicketRequest arg fileNameLen 64 16 with
  | none => exact issuing_refuse ctx arg _
  | some r =>
    cases hp : buildTransferFullPath ctx r.fileName fullPathLen with
    | none =>
      dsimp only
      rw [hp]
      exact issuing_refuse ctx arg _
    | some path =>
      dsimp only
      rw [hp]
      refine Machine.guarded_bind _ (Machine.guarded_mono _ ?_
        (issuing_uses hG (getFileInfoByPath_uses (fun o => o.isSend = false) (fun _ _ => rfl)
          ctx.userId path)))
      rintro (_ | ⟨id,fileId⟩) w₁ -
      · exact issuing_refuse ctx arg _
      refine Machine.guarded_bind _ (Machine.guarded_mono _ ?_
        (issuing_uses hG (loadAvailableSources_uses (fun o => o.isSend = false) rfl (fun _ => rfl)
          fileId)))
      rintro (_ | sources) w₂ -
      · exact issuing_refuse ctx arg _
      dsimp only
      split
      · refine Machine.guarded_bind _ (Machine.guarded_mono _ ?_
          (issuing_ticket (rangeGrant ctx r path) transferTicketLen hG))
        rintro (_ | ticket) w₃ ht
        · exact issuing_refuse ctx arg _
        · obtain ⟨hlt,num,hsigned⟩ := ht ticket rfl
          refine ⟨fun p hp' _ => ⟨r,path,num,hr,hp,?_⟩,fun _ _ _ _ _ => trivial⟩
          cases hp'
          have htake : ticket.take (transferTicketLen-1) = ticket :=
            List.take_of_length_le (by omega)
          simpa [initTransferTicketReplyPacket,htake] using hsigned
      · exact issuing_refuse ctx arg _

theorem issued_signed {ctx : ClientContext} {arg t : Text} {r : RangeRequest}
    (h : Issued (κ := κ) lib ctx arg t)
    (hr : parseGetsRangeTicketRequest arg fileNameLen 64 16 = some r) :
    ∃ path id, buildTransferFullPath ctx r.fileName fullPathLen = some path ∧
      SignedAs lib id (rangeGrant ctx r path) t := by
  obtain ⟨reached,success⟩ := h
  obtain ⟨hgrant,_⟩ := Machine.reaches_guarded reached (issuing_prepare ctx arg)
  obtain ⟨r',path,id,hr',hp,hs⟩ := hgrant _ rfl success
  obtain rfl : r = r' := Option.some.inj (hr.symm.trans hr')
  exact ⟨path,id,hp,hs⟩

end Issuing

section Paths

/-- A granted path is a directory, other than `/` itself, and a last name. -/
theorem transferFullPath_parts {ctx : ClientContext} {arg full : Text} {size : ℕ}
    (h : buildTransferFullPath ctx arg size = some full) :
    '/' ∉ arg ∧ ∃ dir, dir ≠ "/".toList ∧ full = dir ++ '/'::arg := by
  unfold buildTransferFullPath at h
  split at h
  · rename_i hok
    obtain ⟨rfl,_⟩ := bounded_eq_some.mp h
    refine ⟨hok.2,?_⟩
    by_cases hroot : ctx.currentPath = "/".toList
    · exact ⟨[],by decide,if_pos hroot⟩
    · exact ⟨ctx.currentPath,hroot,if_neg hroot⟩
  · cases h

theorem splitFullPath_parts {dir arg parent name : Text} (hslash : '/' ∉ arg)
    (harg : arg.length < fileNameLen)
    (h : splitFullPath (dir ++ '/'::arg) 256 fileNameLen = some (parent,name)) :
    name = arg ∧ ((dir = [] ∧ parent = "/".toList) ∨
      (dir ≠ [] ∧ parent = dir ∧ dir.length < 256)) := by
  have htake : arg.take (fileNameLen-1) = arg := List.take_of_length_le (by omega)
  have hlast : splitLast '/' (dir ++ '/'::arg) = some (dir,arg) :=
    splitLast_some.mpr ⟨rfl,hslash⟩
  simp only [splitFullPath,hlast,htake] at h
  split at h
  · cases h
  split at h
  · cases h
  split at h
  · rename_i hdir
    cases h
    exact ⟨rfl,.inl ⟨hdir,rfl⟩⟩
  split at h
  · cases h
  · rename_i hdir hlen
    cases h
    exact ⟨rfl,.inr ⟨hdir,rfl,by omega⟩⟩

/-- The transfer takes the granted path apart and joins it again. -/
theorem splitFullPath_rebuilds {ctx : ClientContext} {arg full parent name : Text}
    (hfull : buildTransferFullPath ctx arg fullPathLen = some full) (harg : arg.length < fileNameLen)
    (hsplit : splitFullPath full 256 fileNameLen = some (parent,name)) (userId : ℤ) (dirId : ℕ)
    {full' : Text}
    (hbuild : buildFullVirtualPath fullPathLen ⟨userId,parent.take 255,dirId⟩ name = some full') :
    full' = full := by
  obtain ⟨hslash,dir,hdir,rfl⟩ := transferFullPath_parts hfull
  obtain ⟨rfl,hparent⟩ := splitFullPath_parts hslash harg hsplit
  unfold buildFullVirtualPath at hbuild
  split at hbuild
  · obtain ⟨rfl,_⟩ := bounded_eq_some.mp hbuild
    rcases hparent with ⟨rfl,rfl⟩ | ⟨_,rfl,hlen⟩
    · rfl
    · have htake : parent.take 255 = parent := List.take_of_length_le (by omega)
      simp only [htake,if_neg hdir]
  · cases hbuild

end Paths

section Serving

variable {ι : Type} [DecidableEq ι] {lib : Library} {i : ι} {storeDir : Text}
  {inode : Option ℕ} {d : Delivery} {s : World ι × (ι → Delivery)}
  {G : Op → World ι × (ι → Delivery) → Prop}

theorem delivers_verify (hlib : lib.Faithful) {id t : Text} {g : Grant} (ht : SignedAs lib id g t)
    (hs : Sees i storeDir inode d s)
    (hG : ∀ o s, o ≠ .overflow → Sees i storeDir inode d s → G o s) :
    Delivers lib i G (verifyAndConsumeTransferTicket t fullPathLen 64 16)
      (fun r s' => Sees i storeDir inode d s' ∧ ∀ g', r = some g' → g' = g) s := by
  refine delivers_calm rfl hs (hG _ _ (by simp) hs) fun now s₁ hs₁ => ?_
  simp only [Program.bind,jwtVerifyTransferTicket]
  split
  · exact ⟨hs₁,fun _ he => by cases he⟩
  refine delivers_op hs₁ (hG _ _ (by simp) hs₁) fun w c r s₂ hw _ hx hdir hg => ?_
  have hs₂ := sees_calm rfl hw hx hdir hg
  rcases hclaims : (r : Option (List JwtClaim)) with _ | claims
  · exact ⟨hs₂,fun _ he => by cases he⟩
  have hdecode : ∃ now, lib.decode transferTicketIssuer transferTicketAudience jwtSecretKey t now =
      some claims := by
    rw [hclaims] at hx
    cases c <;> simp [execute] at hx
    exact ⟨_,hx.1⟩
  obtain ⟨now',hdecode⟩ := hdecode
  simp only [Program.bind]
  rcases hread : readTicket claims fullPathLen 64 16 33 with _ | ⟨g',id'⟩
  · exact ⟨hs₂,fun _ he => by cases he⟩
  obtain ⟨rfl,_⟩ := readTicket_names hlib hdecode hread g id ht
  refine delivers_calm rfl hs₂ (hG _ _ (by simp) hs₂) fun r s₃ hs₃ => ?_
  cases (r : Bool) with
  | false => exact ⟨hs₃,fun _ he => by cases he⟩
  | true =>
    refine ⟨hs₃,fun g' he => ?_⟩
    cases he
    rfl

theorem delivers_transferContext (userId : ℤ) (path : Text) (hs : Sees i storeDir inode d s)
    (hG : ∀ o s, o ≠ .overflow → Sees i storeDir inode d s → G o s) :
    Delivers lib i G (buildTransferContext userId path)
      (fun r s' => Sees i storeDir inode d s' ∧ ∀ ctx name, r = some (ctx,name) →
        ∃ parent dirId, splitFullPath path 256 fileNameLen = some (parent,name) ∧
          ctx = ⟨userId,parent.take 255,dirId⟩) s := by
  unfold buildTransferContext
  rcases hsplit : splitFullPath path 256 fileNameLen with _ | ⟨parent,fileName⟩
  · exact ⟨hs,nofun⟩
  dsimp only
  split
  · refine ⟨hs,fun ctx name he => ?_⟩
    cases he
    exact ⟨parent,0,rfl,rfl⟩
  · rename_i hroot
    unfold daoGetNodeByPath
    rw [if_neg hroot]
    refine delivers_calm rfl hs (hG _ _ (by simp) hs) fun r s₁ hs₁ => ?_
    rcases (r : Option (ℕ × ℕ)) with _ | ⟨dirId,type⟩
    · exact ⟨hs₁,nofun⟩
    simp only [Program.bind]
    split
    · exact ⟨hs₁,nofun⟩
    · refine ⟨hs₁,fun ctx name he => ?_⟩
      cases he
      exact ⟨parent,dirId,rfl,rfl⟩

/-- A valid range never selects the whole file. -/
theorem serveDownload_range {first last : ℤ} (h0 : 0 ≤ first) (h : first ≤ last)
    (ctx : ClientContext) (fileName : Text) :
    serveDownload ctx fileName first last = handleGetsRange ctx fileName first last :=
  if_pos ⟨h,by omega⟩

theorem parsed_range {request : Text} {m n k : ℕ} {r : RangeRequest}
    (h : parseGetsRangeTicketRequest request m n k = some r) :
    r.fileName.length < m ∧ 0 ≤ r.rangeStart ∧ r.rangeStart ≤ r.rangeEnd ∧ r.rangeEnd ≤ offMax := by
  simp only [parseGetsRangeTicketRequest,Option.bind_eq_bind,Option.bind_eq_some_iff] at h
  obtain ⟨buf,_,⟨name,rest⟩,_,fileName,hname,⟨a,rest⟩,_,⟨b,rest⟩,_,⟨ip,rest⟩,_,sip,_,
    ⟨port,rest⟩,_,sport,_,h⟩ := h
  split at h
  · cases h
  · rename_i hrange
    cases h
    obtain ⟨rfl,hlt⟩ := bounded_eq_some.mp hname
    have h0 : 0 ≤ atollOff a := not_lt.mp fun hlt => hrange (.inl hlt)
    have h1 : atollOff a ≤ atollOff b := not_lt.mp fun hlt => hrange (.inr hlt)
    exact ⟨hlt,h0,h1,atollOff_le b⟩

theorem serveTransfer_inRange {ctx : ClientContext} {r : RangeRequest} {path : Text}
    (hpath : buildTransferFullPath ctx r.fileName fullPathLen = some path)
    (hname : r.fileName.length < fileNameLen) (h0 : 0 ≤ r.rangeStart)
    (hrange : r.rangeStart ≤ r.rangeEnd) (hs : Sees i storeDir inode d s) (hd : d.sends = []) :
    InRange lib ctx.userId path storeDir r.rangeStart r.rangeEnd i
      (serveTransfer (rangeGrant ctx r path))
      (fun _ s' => Sending ctx.userId path storeDir r.rangeStart r.rangeEnd i s') s := by
  have hconf : Confined ctx.userId path storeDir r.rangeStart r.rangeEnd d :=
    idle_confined hd (by omega)
  have hG : ∀ o s, o ≠ Op.overflow → Sees i storeDir inode d s →
      RangeKept ctx.userId path storeDir r.rangeStart r.rangeEnd i o s :=
    fun o s ho hs => ⟨ho,by rw [hs.history]; exact hconf⟩
  unfold serveTransfer
  refine Machine.guarded_bind _ (Machine.guarded_mono _ ?_
    (delivers_transferContext ctx.userId path hs hG))
  rintro (_ | ⟨ctx',fileName⟩) s₁ ⟨hs₁,hparts⟩
  · exact delivers_calm rfl hs₁ (hG _ _ (by simp) hs₁) fun _ s₂ hs₂ => ⟨_,d,hs₂,hconf⟩
  · obtain ⟨parent,dirId,hsplit,rfl⟩ := hparts ctx' fileName rfl
    simp only [if_true,rangeGrant]
    rw [serveDownload_range h0 hrange]
    exact handleGetsRange_inRange ⟨ctx.userId,parent.take 255,dirId⟩ fileName
      (fun full hb => splitFullPath_rebuilds hpath hname hsplit ctx.userId dirId hb) hrange h0 hs₁ hd

theorem handleTransferRequest_inRange (hlib : lib.Faithful) {ctx : ClientContext}
    {r : RangeRequest} {path id t : Text} (ht : SignedAs lib id (rangeGrant ctx r path) t)
    (hpath : buildTransferFullPath ctx r.fileName fullPathLen = some path)
    (hname : r.fileName.length < fileNameLen) (h0 : 0 ≤ r.rangeStart)
    (hrange : r.rangeStart ≤ r.rangeEnd) (hauth : (s.1.node.conn i).auth = t)
    (hs : Sees i storeDir inode d s) (hd : d.sends = []) :
    InRange lib ctx.userId path storeDir r.rangeStart r.rangeEnd i handleTransferRequest
      (fun _ s' => Sending ctx.userId path storeDir r.rangeStart r.rangeEnd i s') s := by
  have hconf : Confined ctx.userId path storeDir r.rangeStart r.rangeEnd d :=
    idle_confined hd (by omega)
  have hG : ∀ o s, o ≠ Op.overflow → Sees i storeDir inode d s →
      RangeKept ctx.userId path storeDir r.rangeStart r.rangeEnd i o s :=
    fun o s ho hs => ⟨ho,by rw [hs.history]; exact hconf⟩
  refine ⟨hG _ _ (by simp) hs,fun ⟨w,c⟩ r₁ s₁ hok hx => ?_⟩
  obtain ⟨hx,hg⟩ := recorded_exec hx
  have hw := sees_unmoved hs hok.1
  have hs₁ : Sees i storeDir inode d s₁ := by
    refine sees_calm rfl hw hx ((execute_announced hx).1.trans hw.storeDir) ?_
    rw [hg,update_self,hw.history]
  have hticket : r₁ = some t ∨ r₁ = none := by
    rw [← hauth,← hok.1.conn]
    cases c <;> simp [execute] at hx
    · exact .inl hx.1.symm
    · exact .inr hx.1.symm
  rcases hticket with rfl | rfl
  · simp only [Program.bind]
    refine Machine.guarded_bind _ (Machine.guarded_mono _ ?_ (delivers_verify hlib ht hs₁ hG))
    rintro (_ | g) s₂ ⟨hs₂,hgrant⟩
    · exact ⟨_,d,hs₂,hconf⟩
    obtain rfl := hgrant g rfl
    refine Machine.guarded_bind _ (Machine.guarded_mono _ ?_ (delivers_uses
      (getCurrentServerAddress_uses (fun o => o.calm = true) rfl 64 16) hs₂ fun o s ho hs =>
        hG o s (by rintro rfl; cases ho) hs))
    rintro (_ | ⟨ip,port⟩) s₃ hs₃
    · exact ⟨_,d,hs₃,hconf⟩
    dsimp only
    split
    · exact serveTransfer_inRange hpath hname h0 hrange hs₃ hd
    · exact ⟨_,d,hs₃,hconf⟩
  · exact ⟨_,d,hs₁,hconf⟩

end Serving

/-- What a range ticket for the request `r` of `ctx` promises of the transfer on
connection `i` that presents it, `path` being the path it was granted for. -/
structure RangeServed {ι : Type} (lib : Library) (ctx : ClientContext) (r : RangeRequest)
    (path ticket storeDir : Text) (i : ι)
    (P : Pool Op Op.Res ι (World ι × (ι → Delivery)) Unit) : Prop where
  confined : Confined ctx.userId path storeDir r.rangeStart r.rangeEnd (P.state.2 i)
  slice : ∀ file, (∀ s ∈ (P.state.2 i).sends, s.file = file) → ∃ p q, r.rangeStart ≤ p ∧
    q ≤ r.rangeEnd+1 ∧ (P.state.2 i).sends.flatMap (·.bytes) =
      (file.drop p.toNat).take (q-p).toNat
  defined : ∀ k, P.progs i ≠ .op .overflow k
  ranged : ∀ now claims g id, lib.decode transferTicketIssuer transferTicketAudience jwtSecretKey
      ticket now = some claims → readTicket claims fullPathLen 64 16 33 = some (g,id) →
    g = rangeGrant ctx r path ∧ ∀ ctx' fileName,
      serveDownload ctx' fileName g.rangeStart g.rangeEnd =
        handleGetsRange ctx' fileName r.rangeStart r.rangeEnd

/-- Whoever presents the ticket of a range request, with whatever file packet and
whatever else runs: the bytes sent are a run of bytes of the file at the ticket's
path, inside the range asked for. -/
theorem range_transfer_confined {κ ι : Type} [DecidableEq κ] [DecidableEq ι] (lib : Library)
    (hlib : lib.Faithful) (ctx : ClientContext) (arg : Text) (r : RangeRequest) (ticket : Text)
    (hr : parseGetsRangeTicketRequest arg fileNameLen 64 16 = some r)
    (ht : Issued (κ := κ) lib ctx arg ticket) (i : ι)
    (P P' : Pool Op Op.Res ι (World ι × (ι → Delivery)) Unit)
    (hprog : P.progs i = handleTransferRequest) (hauth : (P.state.1.node.conn i).auth = ticket)
    (hstart : P.state.2 i = .start)
    (run : Pool.Run (deliveries ι lib) Representable P P') :
    ∃ path, buildTransferFullPath ctx r.fileName fullPathLen = some path ∧
      RangeServed lib ctx r path ticket P.state.1.node.storeDir i P' := by
  obtain ⟨path,id,hpath,hsigned⟩ := issued_signed ht hr
  obtain ⟨hname,h0,hrange,_⟩ := parsed_range hr
  have hguard := handleTransferRequest_inRange hlib hsigned hpath hname h0 hrange hauth
    ⟨rfl,rfl,hstart⟩ rfl
  rw [← hprog] at hguard
  obtain ⟨s,hs,hg⟩ := Pool.guarded_run (fun s => ⟨rfl,rfl,rfl,rfl⟩)
    (fun s t u h h' => ⟨h'.desc.trans h.desc,h'.conn.trans h.conn,h'.storeDir.trans h.storeDir,
      h'.history.trans h.history⟩)
    (fun j o s c r s' hj _ hx => deliveries_unmoved hj hx) hguard run
  have hnow : Confined ctx.userId path P.state.1.node.storeDir r.rangeStart r.rangeEnd
      (P'.state.2 i) ∧ ∀ k, P'.progs i ≠ .op .overflow k := by
    rw [hs.history]
    cases hp : P'.progs i with
    | ret a =>
      rw [hp] at hg
      obtain ⟨e,d,hsees,hconf⟩ := hg
      exact ⟨by rw [hsees.history]; exact hconf,by simp⟩
    | op o k =>
      rw [hp] at hg
      obtain ⟨⟨ho,hconf⟩,_⟩ := hg
      refine ⟨hconf,fun k' he => ho ?_⟩
      cases he
      rfl
  refine ⟨path,hpath,hnow.1,?_,hnow.2,?_⟩
  · intro file hfile
    obtain ⟨p,q,hp,hq,hrun⟩ := hnow.1.run
    exact ⟨p,q,hp,hq,contiguous_slice hrun (by omega) hfile⟩
  · intro now claims g id' hd hread
    obtain ⟨rfl,_⟩ := readTicket_names hlib hd hread _ _ hsigned
    exact ⟨rfl,serveDownload_range h0 hrange⟩

namespace RangeDownload

open TwoServers

def file : Content := "xyz".toList

def storeFile : Text := "../test/server_files".toList ++ '/'::Hex.hexLower (List.replicate 32 0)

def presenter : Connection := ⟨token,⟨.gets,0,-5,[],[]⟩,fun _ => [],[],[]⟩

def world : World Bool where
  db := (servers Bool).db
  minted := []
  drawn := []
  node :=
    { node Bool "10.0.0.2" "9091" with
      store := (Inodes.empty []).create storeFile file
      conn := fun i => if i then presenter else quiet }

/-- One thread answers the request for the ticket, the other one the transfer. -/
def start : Pool Op Op.Res Bool (World Bool × (Bool → Delivery)) Unit :=
  ⟨fun i => if i then handleTransferRequest else handleGetsRangeTicketPrepare session request,
    world,fun _ => .start⟩

def prepare : List Choice :=
  [.ok,.ok,.value 1000,.bytes number,.value 1000,.ok,.ok]

def transfer : List Choice :=
  [.ok,.value 1010,.value 1010] ++ List.replicate 9 .ok ++ [.count 1,.count 1,.ok]

def schedule : List (Bool × Choice) :=
  prepare.map (false,·) ++ (false,.ok)::transfer.map (true,·)

def answer : Server Unit → Option TransferTicketReply
  | .op (.send (.ticket p)) _ => some p
  | _ => none

theorem answer_some {q : Server Unit} {p : TransferTicketReply} (h : answer q = some p) :
    ∃ k, q = .op (.send (.ticket p)) k := by
  unfold answer at h
  split at h
  · cases h
    exact ⟨_,rfl⟩
  · cases h

theorem issued : Issued (κ := Bool) lib session request token := by
  have h : ((server Bool lib).advance false (handleGetsRangeTicketPrepare session request) world
      prepare).map (fun x => answer x.1) = some (some granted) := by
    decide +kernel
  obtain ⟨⟨q,w⟩,hq,ha⟩ := Option.map_eq_some_iff.mp h
  obtain ⟨k,rfl⟩ := answer_some ha
  have ht : granted.ticket = token := by decide +kernel
  rw [← ht]
  exact .reply (Machine.reaches_disturbed (fun _ => trivial) (Machine.advance_reaches hq)) rfl

def small (_ : Bool) (o : Op) (s : World Bool × (Bool → Delivery)) (_ : Choice) : Bool :=
  match o with
  | .fstat => (s.1.node.desc true).all (fun d => decide ((s.1.node.store.data d.inode).length ≤ 3)) &&
    (s.1.node.desc false).all fun d => decide ((s.1.node.store.data d.inode).length ≤ 3)
  | _ => true

theorem small_representable (i : Bool) (o : Op) (s : World Bool × (Bool → Delivery)) (c : Choice)
    (h : small i o s c = true) : Representable i o s c := by
  rintro rfl d hd
  unfold small at h
  have hlen : (s.1.node.store.data d.inode).length ≤ 3 := by
    cases i <;> simp_all
  unfold offMax
  omega

end RangeDownload

open RangeDownload TwoServers in
theorem range_transfer_served : ∃ P, Pool.Run (deliveries Bool lib) Representable start P ∧
    (P.state.2 true).sends.flatMap (·.bytes) = "xy".toList ∧
    RangeServed lib session asked "/a".toList token "../test/server_files".toList true P := by
  have h : (Pool.replay (deliveries Bool lib) small schedule start).map
      (fun P => (P.state.2 true).sends.flatMap (·.bytes)) = some "xy".toList := by
    decide +kernel
  obtain ⟨P,hP,hbytes⟩ := Option.map_eq_some_iff.mp h
  have hrun := Pool.run_mono small_representable (Pool.replay_run schedule hP)
  have hr : parseGetsRangeTicketRequest request fileNameLen 64 16 = some asked := by decide +kernel
  have hp : buildTransferFullPath session asked.fileName fullPathLen = some "/a".toList := by
    decide
  obtain ⟨path,hpath,hserved⟩ := range_transfer_confined lib faithful session request asked token hr
    issued true start P rfl rfl rfl hrun
  obtain rfl : "/a".toList = path := Option.some.inj (hp.symm.trans hpath)
  exact ⟨P,hrun,hbytes,hserved⟩

end WindCloud
