import WindCloud.Server.TicketOutline

/-!
# Runs of ticket calls

Any number of calls on any number of servers, interleaved operation by
operation. A number is entered in the table of one process only, so that a
ticket issued by one server is never accepted by another.
-/

set_option autoImplicit false

namespace WindCloud
open CString Effect Function TicketTable

/-- Empty tables, no token made and no packet sent. -/
structure FreshTickets {κ ι : Type} (s : Cluster κ ι) : Prop where
  tickets : ∀ k, (s.nodes k).tickets = .zero
  minted : s.minted = []
  sent : ∀ k i, ((s.nodes k).conn i).sent = []

abbrev TicketPool (κ ι : Type) :=
  Pool Op Op.Res (κ × ι) (Cluster κ ι × (κ × ι → Option ℤ)) TicketOutcome

def ticketPool {κ ι : Type} (calls : κ × ι → TicketCall) (s : Cluster κ ι) : TicketPool κ ι :=
  ⟨fun a => (calls a).program,s,fun _ => none⟩

namespace TicketCall

def Grants : TicketCall → Grant → Prop
  | issue g _, g' => g' = g
  | verify _ _ _ _, _ => False
  | rangePrepare ctx arg, g => ∃ r path,
    parseGetsRangeTicketRequest arg fileNameLen 64 16 = some r ∧
      buildTransferFullPath ctx r.fileName fullPathLen = some path ∧ g = rangeGrant ctx r path
  | transferPrepare ctx cmdType arg, g => ∃ path ip port,
    buildTransferFullPath ctx arg fullPathLen = some path ∧
      g = ⟨ctx.userId,cmdType.code,path,0,-1,ip,port⟩

def Settled (lib : Library) : TicketCall → TicketStage → TicketOutcome → Prop
  | issue g _, ℓ, .issued none => ∀ now id g' t, ℓ = .entered now id g' t → g' ≠ g
  | issue g _, ℓ, .issued (some t) => ∃ now id, ℓ = .entered now id g t
  | verify t _ _ _, ℓ, .verified (some g) => ∃ now id, ℓ = .accepted now id g t ∧ Names lib t g id
  | _, _, _ => True

end TicketCall

section

variable {κ ι : Type} [DecidableEq κ] [DecidableEq ι] {lib : Library}
  {calls : κ × ι → TicketCall} {s : Cluster κ ι}

theorem ticketing_call (calls : κ × ι → TicketCall) (hlib : lib.Faithful) (a : κ × ι) :
    Ticketing lib (fun b => (calls b).Grants) a (calls a).program ((calls a).Settled lib) .idle := by
  have hG : ∀ g, (calls a).Grants g → (fun b => (calls b).Grants) a g := fun _ h => h
  cases ha : calls a with
  | issue g size =>
    refine ticketing_bind (ticketing_issue (hG g (by rw [ha]; rfl)) size) ?_
    rintro ℓ (_ | t) hr
    · exact fun now id g' t hl => absurd hl (hr now id g' t)
    · obtain ⟨_,now,id,rfl⟩ := hr
      exact ⟨now,id,rfl⟩
  | verify t m n l =>
    refine ticketing_bind (ticketing_verify hlib t m n l) ?_
    rintro ℓ (_ | g) hr
    · trivial
    · exact hr g rfl
  | rangePrepare ctx arg =>
    refine ticketing_bind (ticketing_rangePrepare ctx arg fun r path hr hp => ?_)
      fun _ _ _ => trivial
    exact hG _ (by rw [ha]; exact ⟨r,path,hr,hp,rfl⟩)
  | transferPrepare ctx cmdType arg =>
    refine ticketing_bind (ticketing_transferPrepare ctx cmdType arg fun path ip port hp => ?_)
      fun _ _ _ => trivial
    exact hG _ (by rw [ha]; exact ⟨path,ip,port,hp,rfl⟩)

omit [DecidableEq κ] [DecidableEq ι] in
theorem ticketed_fresh (G : κ × ι → Grant → Prop) (hs : FreshTickets s) :
    Ticketed lib G (fun _ => .idle) (s,fun _ => none) where
  clocks := by simp [TicketStage.clock]
  fresh := fun _ _ => rfl
  drawn := by simp [TicketStage.number]
  apart := by simp [TicketStage.number]
  minted := by simp [hs.minted]
  signed := by simp [TicketStage.token]
  distinct := fun k => by rw [hs.tickets]; exact zero_distinct
  table := by
    intro k slot id e hact
    rw [hs.tickets] at hact
    cases List.eq_of_mem_replicate (List.mem_of_getElem? hact)
  decoded := by simp
  accepted := by simp
  told := by simp [hs.sent]

/-- The invariant and the stages of all calls, in every reachable state. -/
theorem ticketed_run (hlib : lib.Faithful) (hs : FreshTickets s) {P : TicketPool κ ι}
    (run : Pool.Run (clockedCluster κ ι lib) (Genuine lib) (ticketPool calls s) P) :
    ∃ Λ, Ticketed lib (fun b => (calls b).Grants) Λ P.state ∧
      ∀ a o, P.progs a = .ret o → (calls a).Settled lib (Λ a) o := by
  obtain ⟨Λ,hi,ho⟩ := outline_run (fun a => ticketing_call calls hlib a)
    (ticketed_fresh _ hs) run
  refine ⟨Λ,hi,fun a o hp => ?_⟩
  have h := ho a
  rw [hp] at h
  exact h

end

/-- What tickets promise in state `P`. -/
structure OneShot {κ ι : Type} [DecidableEq κ] [DecidableEq ι] (lib : Library)
    (calls : κ × ι → TicketCall) (P : TicketPool κ ι) : Prop where
  once : ∀ a b t m n l m' n' l' g g', calls a = .verify t m n l →
    P.progs a = .ret (.verified (some g)) → calls b = .verify t m' n' l' →
    P.progs b = .ret (.verified (some g')) → a = b
  issued : ∀ k j t m n l g, calls (k,j) = .verify t m n l →
    P.progs (k,j) = .ret (.verified (some g)) →
    ∃ i issue now, (calls (k,i)).Grants g ∧ P.state.2 (k,i) = some issue ∧
      P.state.2 (k,j) = some now ∧ now < issue+30 ∧
      (∀ g' size r, calls (k,i) = .issue g' size → P.progs (k,i) = .ret (.issued r) →
        r = some t) ∧
      ∀ a g' size, calls a = .issue g' size → P.progs a = .ret (.issued (some t)) → a = (k,i)
  distinct : ∀ k, Distinct (P.state.1.nodes k).tickets
  room : ∀ (a : κ × ι) now id c s', (clockedCluster κ ι lib).exec (.ticketRegister now id) a
      P.state c = some (false,s') →
    (P.state.1.nodes a.1).tickets.slots.length = 1024 ∧
      ∀ n ∈ (P.state.1.nodes a.1).tickets.slots, n.active = 1 ∧ now < n.expireTime

section

variable {κ ι : Type} [DecidableEq κ] [DecidableEq ι]

/-- However calls interleave, a ticket is accepted once, in time, on the server
that issued it and with what was granted; numbers are entered once, and only a
table full of valid tickets refuses another. -/
theorem tickets_one_shot (lib : Library) (hlib : lib.Faithful) (calls : κ × ι → TicketCall)
    (s : Cluster κ ι) (hs : FreshTickets s) {P : TicketPool κ ι}
    (run : Pool.Run (clockedCluster κ ι lib) (Genuine lib) (ticketPool calls s) P) :
    OneShot lib calls P := by
  obtain ⟨Λ,hi,hsettled⟩ := ticketed_run hlib hs run
  have hacc : ∀ a t m n l g, calls a = .verify t m n l → P.progs a = .ret (.verified (some g)) →
      ∃ now id, Λ a = .accepted now id g t ∧ Names lib t g id := by
    intro a t m n l g ha hp
    have h := hsettled a _ hp
    rwa [ha] at h
  constructor
  · intro a b t m n l m' n' l' g g' ha hpa hb hpb
    obtain ⟨now,id,hla,hnames⟩ := hacc a t m n l g ha hpa
    obtain ⟨now',id',hlb,_⟩ := hacc b t m' n' l' g' hb hpb
    obtain ⟨⟨i,now2,hent,_⟩,_⟩ := hi.accepted b now' id' g' t hlb
    obtain ⟨_,rfl⟩ := hnames g' id' (hi.signed _ id' g' t (by rw [hent]; rfl)).1
    exact (hi.accepted b now' _ g' t hlb).2 a now g t hla
  · intro k j t m n l g hv hp
    obtain ⟨now,id,hl,hnames⟩ := hacc (k,j) t m n l g hv hp
    obtain ⟨⟨i,issue,hent,hlt⟩,_⟩ := hi.accepted _ now id g t hl
    refine ⟨i,issue,now,(hi.signed (k,i) id g t (by rw [hent]; rfl)).2,
      hi.clocks _ _ (by rw [hent]; rfl),hi.clocks _ _ (by rw [hl]; rfl),hlt,?_,?_⟩
    · rintro g' size (_ | t') hc hr
      · have h := hsettled _ _ hr
        rw [hc] at h
        have hg := (hi.signed (k,i) id g t (by rw [hent]; rfl)).2
        rw [hc] at hg
        exact absurd hg (h issue id g t hent)
      · have h := hsettled _ _ hr
        rw [hc] at h
        obtain ⟨now',id',he⟩ := h
        rw [hent] at he
        cases he
        rfl
    · intro a g' size hc hr
      have h := hsettled _ _ hr
      rw [hc] at h
      obtain ⟨now',id',he⟩ := h
      obtain ⟨_,rfl⟩ := hnames g' id' (hi.signed a id' g' t (by rw [he]; rfl)).1
      exact hi.apart a (k,i) _ (by rw [he]; rfl) (by rw [hent]; rfl)
  · exact hi.distinct
  · intro a now id c s' hx
    obtain ⟨w,hw,_⟩ := clocked_step hx
    obtain ⟨hr,_⟩ := execute_ticketRegister hw
    exact ⟨(P.state.1.nodes a.1).tickets.size,register_full (hi.distinct a.1) hr.symm⟩

end

/-- No operation fails, and a token made by one of the servers is decoded. -/
def Reliable {κ ι : Type} (lib : Library) (a : κ × ι) (o : Op)
    (s : Cluster κ ι × (κ × ι → Option ℤ)) (c : Choice) : Prop :=
  c ≠ .fault ∧ Genuine lib a o s c ∧
    match o, c with
    | .jwtDecode iss aud secretKey token, .value now =>
      token ∈ s.1.minted → lib.decode iss aud secretKey token now ≠ none
    | _, _ => True

/-- Server `A` has granted a range ticket for server `B`, and a transfer on `B`
has brought it there in time; no other transfer brings that ticket. -/
structure Presented {κ ι : Type} (calls : κ × ι → TicketCall) (s : Cluster κ ι)
    (P : TicketPool κ ι) (A B : κ) (i j : ι) (ctx : ClientContext) (arg : Text)
    (r : RangeRequest) (path ticket : Text) : Prop where
  servers : A ≠ B
  addresses : (s.nodes A).address ≠ (s.nodes B).address
  prepare : calls (A,i) = .rangePrepare ctx arg
  request : parseGetsRangeTicketRequest arg fileNameLen 64 16 = some r
  path : buildTransferFullPath ctx r.fileName fullPathLen = some path
  source : (s.nodes B).address = (r.sourceIp,r.sourcePort)
  reply : ∃ p, Packet.ticket p ∈ ((P.state.1.nodes A).conn i).sent ∧ p.success = 1 ∧
    p.ticket = ticket
  present : calls (B,j) = .verify ticket fullPathLen 64 16
  first : ∀ a m n l, a ≠ (B,j) → calls a ≠ .verify ticket m n l
  done : ∃ o, P.progs (B,j) = .ret o
  timely : ∃ issue now, P.state.2 (A,i) = some issue ∧ P.state.2 (B,j) = some now ∧
    issue ≤ now ∧ now < issue+30

section

variable {κ ι : Type} [DecidableEq κ] [DecidableEq ι]

/-- A range ticket for another server is not accepted there, in any run. -/
theorem range_ticket_refused (lib : Library) (hlib : lib.Faithful) (calls : κ × ι → TicketCall)
    (s : Cluster κ ι) (hs : FreshTickets s) {P : TicketPool κ ι}
    (run : Pool.Run (clockedCluster κ ι lib) (Genuine lib) (ticketPool calls s) P)
    {A B : κ} {i j : ι} {ctx : ClientContext} {arg : Text} {r : RangeRequest} {path ticket : Text}
    (hp : Presented calls s P A B i j ctx arg r path ticket) :
    P.progs (B,j) ≠ .ret (.verified (some (rangeGrant ctx r path))) := by
  intro hret
  obtain ⟨Λ,hi,hsettled⟩ := ticketed_run hlib hs run
  have h := hsettled _ _ hret
  rw [hp.present] at h
  obtain ⟨now,id,hl,hnames⟩ := h
  obtain ⟨⟨k,issue,hent,_⟩,_⟩ := hi.accepted _ now id _ ticket hl
  obtain ⟨p,hm,h1,rfl⟩ := hp.reply
  obtain ⟨now',id',g,he⟩ := hi.told (A,i) p hm h1
  obtain ⟨_,rfl⟩ := hnames g id' (hi.signed (A,i) id' g _ (by rw [he]; rfl)).1
  have hab : (A,i) = (B,k) := hi.apart _ _ _ (by rw [he]; rfl) (by rw [hent]; rfl)
  exact hp.servers (congrArg Prod.fst hab)

end

namespace TwoServers

def number : List ℕ := List.range 16

def token : Text :=
  ["eyJhbGciOiJIUzI1NiIsInR5cCI6IkpXVCJ9.eyJ","pYXQiOjEwMDAsImV4cCI6MTAzMCwiaXNzIjoiV2l",
    "uZENsb3VkVHJhbnNmZXIiLCJhdWQiOiJXaW5kQ2x","vdWRUcmFuc2ZlckNsaWVudCIsInVpZCI6MSwiY21",
    "kIjo0LCJwYXRoIjoiL2EiLCJ0aWQiOiIwMDAxMDI","wMzA0MDUwNjA3MDgwOTBhMGIwYzBkMGUwZiIsInN",
    "0YXJ0IjowLCJlbmQiOjEsInNpcCI6IjEwLjAuMC4","yIiwic3BvcnQiOiI5MDkxIn0.-uDcwFZ4PPcMV5l",
    "AdN2cPflwBdIKP5-vONpjjazMLgo"].flatMap
    String.toList

def grant : Grant := ⟨1,4,"/a".toList,0,1,"10.0.0.2".toList,"9091".toList⟩

def params : JwtParams := ticketParams grant (Hex.hexLower number) 1000

def lib : Library where
  sha256 := fun _ => []
  encode := fun p => if p = params then some token else none
  decode := fun iss aud secretKey t now =>
    if iss = params.iss ∧ aud = params.aud ∧ secretKey = params.secretKey ∧ t = token ∧
      now < params.exp then some params.claims
    else none

theorem faithful : lib.Faithful where
  claims := by
    intro p t now cs _ _ he hd
    have hp : p = params := by
      by_contra hne
      simp [lib,hne] at he
    subst hp
    have hcs : params.claims = cs := by
      simp only [lib] at hd
      split at hd
      · exact Option.some.inj hd
      · cases hd
    subst hcs
    decide

def quiet : Connection := ⟨[],⟨.puts,0,0,[],[]⟩,fun _ => [],[],[]⟩

def node (ι : Type) (ip port : String) : Node ι where
  storeDir := "../test/server_files".toList
  address := (ip.toList,port.toList)
  store := .empty []
  desc := fun _ => none
  conn := fun _ => quiet
  tickets := .zero
  unlinked := []

/-- Server `false` is asked for a ticket for server `true`, which holds the file. -/
def servers (ι : Type) : Cluster Bool ι where
  db :=
    { Db.empty with
      files := [⟨1,List.replicate 32 0,2,1⟩]
      paths := [⟨1,1,"/a".toList,some 1,0,"a".toList,0⟩]
      fileSources := [⟨1,1,"10.0.0.2".toList,"9091".toList,1⟩] }
  minted := []
  drawn := []
  nodes := fun k => if k then node ι "10.0.0.2" "9091" else node ι "10.0.0.1" "9090"

theorem fresh (ι : Type) : FreshTickets (servers ι) where
  tickets := fun k => by cases k <;> rfl
  minted := rfl
  sent := fun k i => by cases k <;> rfl

def session : ClientContext := ⟨1,"/".toList,0⟩

def request : Text := "a|0|1|10.0.0.2|9091".toList

def asked : RangeRequest := ⟨"a".toList,0,1,"10.0.0.2".toList,"9091".toList⟩

def steady {κ ι : Type} (_ : κ × ι) (o : Op) (s : Cluster κ ι × (κ × ι → Option ℤ))
    (c : Choice) : Bool :=
  decide (c ≠ .fault) &&
    match o, c with
    | .randBytes _, .bytes bs => decide (bs ∉ s.1.drawn)
    | .jwtDecode iss aud secretKey t, .value now =>
      decide (t ∈ s.1.minted ∧ lib.decode iss aud secretKey t now ≠ none)
    | _, _ => true

theorem steady_reliable {κ ι : Type} (a : κ × ι) (o : Op)
    (s : Cluster κ ι × (κ × ι → Option ℤ)) (c : Choice) (h : steady a o s c = true) :
    Reliable lib a o s c := by
  obtain ⟨hc,ho⟩ : decide (c ≠ .fault) = true ∧ _ := by simpa only [steady,Bool.and_eq_true] using h
  refine ⟨of_decide_eq_true hc,?_,?_⟩
  · cases o <;> cases c <;> first | trivial | skip
    · exact (of_decide_eq_true ho : _ ∉ _)
    · exact .inr (of_decide_eq_true ho).1
  · cases o <;> cases c <;> first | trivial | skip
    exact fun _ => (of_decide_eq_true ho).2

def result {α : Type} : Server α → Option α
  | .ret a => some a
  | .op _ _ => none

theorem result_some {α : Type} {p : Server α} {a : α} (h : result p = some a) : p = .ret a := by
  cases p with
  | ret b => rw [Option.some.inj h]
  | op o k => cases h

/-- One call issues the ticket on one server and another one uses it there. -/
def sharedCalls (a : Unit × Bool) : TicketCall :=
  if a.2 then .verify token fullPathLen 64 16 else .issue grant transferTicketLen

def shared : Cluster Unit Bool := ⟨.empty,[],[],fun _ => node Bool "10.0.0.2" "9091"⟩

def issueAndUse : List ((Unit × Bool) × Choice) :=
  [(((),false),.value 1000),(((),false),.bytes number),(((),false),.value 1000),
    (((),false),.ok),(((),false),.ok),
    (((),true),.value 1010),(((),true),.value 1010),(((),true),.ok)]

/-- The ticket is prepared by server `false` and presented to server `true`. -/
def crossCalls (a : Bool × Unit) : TicketCall :=
  if a.1 then .verify token fullPathLen 64 16 else .rangePrepare session request

def prepareAndPresent : List ((Bool × Unit) × Choice) :=
  [((false,()),.ok),((false,()),.ok),((false,()),.value 1000),((false,()),.bytes number),
    ((false,()),.value 1000),((false,()),.ok),((false,()),.ok),((false,()),.ok),
    ((true,()),.value 1010),((true,()),.value 1010),((true,()),.ok)]

def observe (P : TicketPool Bool Unit) :
    List Packet × Option TicketOutcome × Option ℤ × Option ℤ :=
  (((P.state.1.nodes false).conn ()).sent,result (P.progs (true,())),P.state.2 (false,()),
    P.state.2 (true,()))

def granted : TransferTicketReply :=
  initTransferTicketReplyPacket 1 "下载分片票据申请成功" (some token)

theorem presented_refused : ∃ P,
    Pool.Run (clockedCluster Bool Unit lib) (Reliable lib)
      (ticketPool crossCalls (servers Unit)) P ∧
    Presented crossCalls (servers Unit) P false true () () session request asked "/a".toList
      token ∧ P.progs (true,()) = .ret (.verified none) := by
  have h : (Pool.replay (clockedCluster Bool Unit lib) steady prepareAndPresent
      (ticketPool crossCalls (servers Unit))).map observe =
      some ([.ticket granted],some (.verified none),some 1000,some 1010) := by
    decide +kernel
  obtain ⟨P,hP,ho⟩ := Option.map_eq_some_iff.mp h
  obtain ⟨hsent,hres,hissue,hnow⟩ : ((P.state.1.nodes false).conn ()).sent = [.ticket granted] ∧
      result (P.progs (true,())) = some (.verified none) ∧
      P.state.2 (false,()) = some 1000 ∧ P.state.2 (true,()) = some 1010 := by
    simpa [observe] using ho
  refine ⟨P,Pool.run_mono steady_reliable (Pool.replay_run prepareAndPresent hP),?_,
    result_some hres⟩
  exact
    { servers := by decide
      addresses := by decide
      prepare := rfl
      request := by decide +kernel
      path := by decide
      source := rfl
      reply := ⟨granted,by rw [hsent]; exact List.mem_singleton_self _,rfl,by decide +kernel⟩
      present := rfl
      first := by
        rintro ⟨k,i⟩ m n l hne
        cases k with
        | false => simp [crossCalls]
        | true => exact absurd rfl hne
      done := ⟨_,result_some hres⟩
      timely := ⟨1000,1010,hissue,hnow,by decide,by decide⟩ }

end TwoServers

open TwoServers

theorem issued_ticket_one_shot : ∃ P,
    Pool.Run (clockedCluster Unit Bool lib) (Genuine lib) (ticketPool sharedCalls shared) P ∧
      P.progs ((),true) = .ret (.verified (some grant)) ∧ OneShot lib sharedCalls P := by
  have h : (Pool.replay (clockedCluster Unit Bool lib) steady issueAndUse
      (ticketPool sharedCalls shared)).map (fun P => result (P.progs ((),true))) =
      some (some (.verified (some grant))) := by
    decide +kernel
  obtain ⟨P,hP,ho⟩ := Option.map_eq_some_iff.mp h
  have hrun := Pool.run_mono (fun a o s c hc => (steady_reliable a o s c hc).2.1)
    (Pool.replay_run issueAndUse hP)
  have hfresh : FreshTickets shared := ⟨fun _ => rfl,rfl,fun _ _ => rfl⟩
  exact ⟨P,hrun,result_some ho,tickets_one_shot lib faithful sharedCalls shared hfresh hrun⟩

theorem presented_ticket_refused : ∃ P,
    Pool.Run (clockedCluster Bool Unit lib) (Genuine lib) (ticketPool crossCalls (servers Unit)) P ∧
      Presented crossCalls (servers Unit) P false true () () session request asked "/a".toList
        token ∧
      P.progs (true,()) ≠ .ret (.verified (some (rangeGrant session asked "/a".toList))) := by
  obtain ⟨P,hrun,hp,_⟩ := presented_refused
  have hg := Pool.run_mono (fun a o s c hc => (hc : Reliable lib a o s c).2.1) hrun
  exact ⟨P,hg,hp,range_ticket_refused lib faithful crossCalls _ (fresh Unit) hg hp⟩

/-- The other server does not accept the ticket even when nothing fails. -/
theorem range_ticket_not_accepted :
    ¬ ∀ (κ ι : Type) [DecidableEq κ] [DecidableEq ι] (lib : Library), lib.Faithful →
      ∀ (calls : κ × ι → TicketCall) (s : Cluster κ ι), FreshTickets s → ∀ P : TicketPool κ ι,
        Pool.Run (clockedCluster κ ι lib) (Reliable lib) (ticketPool calls s) P →
        ∀ (A B : κ) (i j : ι) (ctx : ClientContext) (arg : Text) (r : RangeRequest)
          (path ticket : Text), Presented calls s P A B i j ctx arg r path ticket →
          P.progs (B,j) = .ret (.verified (some (rangeGrant ctx r path))) := by
  intro hall
  obtain ⟨P,hrun,hp,hnone⟩ := presented_refused
  have h := hall Bool Unit lib faithful crossCalls _ (fresh Unit) P hrun _ _ _ _ _ _ _ _ _ hp
  rw [hnone] at h
  cases h

end WindCloud
