import WindCloud.Client.Gets
import WindCloud.Lib.Duet
import WindCloud.Server.SendLoops
import WindCloud.Server.Steps

/-!
# The two sides of a part transfer

A client thread and a server thread on one transfer connection. File packets and
file bytes reach the other side in order or, the connection being lost, not at
all; everything else each side does on its own machine.
-/

set_option autoImplicit false

namespace WindCloud
open CString Effect Function

/-- The connection: the file packet each side has sent, the file bytes the server
has sent, and the number of them the client has taken. -/
structure Wire where
  hello : Option FilePacket
  offset : Option FilePacket
  sent : Content
  received : ℕ

structure Link where
  files : Client.State
  world : World Unit
  wire : Wire

def Link.setWire (s : Link) (w : Wire) : Link := { s with wire := w }

namespace Client.Op

def onWire : Client.Op → Bool
  | .recvFile | .sendFile _ | .recvFull _ => true
  | _ => false

end Client.Op

def clientSide : Machine Client.Op Client.Op.Res Unit Link Client.Choice where
  exec
    | .recvFile, _, s, .ok => s.wire.hello.map fun p => (some p,s)
    | .sendFile p, _, s, .ok =>
      some (true,s.setWire { s.wire with offset := s.wire.offset.or (some p) })
    | .recvFull once, _, s, .ok =>
      -- Waits until that many bytes have arrived.
      if 0 ≤ once ∧ s.wire.received+once ≤ s.wire.sent.length then
        some (some ((s.wire.sent.drop s.wire.received).take once.toNat),
          s.setWire { s.wire with received := s.wire.received+once.toNat })
      else none
    | o, _, s, c => (Client.execute o s.files c).map fun x => (x.1,{ s with files := x.2 })

namespace Op

def onWire : Op → Bool
  | .recvFile | .send _ | .sendfile _ _ | .sendMapped _ _ => true
  | _ => false

end Op

def serverSide (lib : Library) : Machine Op Op.Res Unit Link Choice where
  exec
    | .recvFile, _, s, .ok => s.wire.offset.map fun p => (some p,s)
    | .send (.file p), _, s, .ok =>
      some (true,s.setWire { s.wire with hello := s.wire.hello.or (some p) })
    | .sendfile pos count, _, s, c => (execute lib (.sendfile pos count) () s.world c).map
        fun x => (x.1,s.setWire { s.wire with sent := s.wire.sent ++ x.1 })
    | .sendMapped pos once, _, s, c => (execute lib (.sendMapped pos once) () s.world c).map
        fun x => (x.1,s.setWire { s.wire with sent := s.wire.sent ++ x.1 })
    | o, _, s, c => (execute lib o () s.world c).map fun x => (x.1,{ s with world := x.2 })

/-- The size of the part file is known; everything else may fail. -/
def StatAnswers (o : Client.Op) (_ : Link) (c : Client.Choice) : Prop :=
  ∀ path, o = .stat path → c ≠ .fault

/-- Nothing fails at the server while it is `strict`. -/
def Serving (strict : Prop) (_ : Op) (_ : Link) (c : Choice) : Prop := strict → c ≠ .fault

/-- The file of the session's path is in the store with the content `c`. -/
structure Stored (ctx : ClientContext) (arg : Text) (c : Content) (w : World Unit) : Prop where
  found : ∃ full row fileId file inode, buildFullVirtualPath fullPathLen ctx arg = some full ∧
    w.db.nodeAt ctx.userId full = some row ∧ row.fileId = some fileId ∧ row.type = 0 ∧
    w.db.fileWithId fileId = some file ∧
    (w.node.storeDir ++ '/'::Hex.hexLower file.sha256sum).length < maxPathLen ∧
    w.node.store.names (w.node.storeDir ++ '/'::Hex.hexLower file.sha256sum) = some inode ∧
    w.node.store.data inode = c

structure ClientMoves (s s' : Link) : Prop where
  world : s'.world = s.world
  hello : s'.wire.hello = s.wire.hello
  sent : s'.wire.sent = s.wire.sent
  offset : ∀ p, s.wire.offset = some p → s'.wire.offset = some p

structure ServerMoves (s s' : Link) : Prop where
  files : s'.files = s.files
  offset : s'.wire.offset = s.wire.offset
  received : s'.wire.received = s.wire.received
  hello : ∀ p, s.wire.hello = some p → s'.wire.hello = some p
  sent : s.wire.sent <+: s'.wire.sent

section Moves

variable {s s' : Link}

theorem clientSide_local {o : Client.Op} (ho : o.onWire = false) (s : Link) (c : Client.Choice) :
    clientSide.exec o () s c =
      (Client.execute o s.files c).map fun x => (x.1,{ s with files := x.2 }) := by
  cases o <;> first | rfl | cases ho

theorem serverSide_local {lib : Library} {o : Op} (ho : o.onWire = false) (s : Link) (c : Choice) :
    (serverSide lib).exec o () s c =
      (execute lib o () s.world c).map fun x => (x.1,{ s with world := x.2 }) := by
  cases o <;> first | rfl | cases ho

theorem clientSide_recvFile {c : Client.Choice} {r : Option FilePacket}
    (h : clientSide.exec .recvFile () s c = some (r,s')) :
    s' = s ∧ (r = none ∨ ∃ p, r = some p ∧ s.wire.hello = some p) := by
  cases c with
  | ok =>
    obtain ⟨p,hp,he⟩ := Option.map_eq_some_iff.mp
      (show s.wire.hello.map (fun p => (some p,s)) = some (r,s') from h)
    cases he
    exact ⟨rfl,.inr ⟨p,rfl,hp⟩⟩
  | fault =>
    cases h
    exact ⟨rfl,.inl rfl⟩
  | count n => cases h

theorem clientSide_sendFile {p : FilePacket} {c : Client.Choice} {r : Bool}
    (h : clientSide.exec (.sendFile p) () s c = some (r,s')) :
    (r = false ∧ s' = s) ∨ (r = true ∧
      s' = s.setWire { s.wire with offset := s.wire.offset.or (some p) }) := by
  cases c with
  | ok =>
    cases h
    exact .inr ⟨rfl,rfl⟩
  | fault =>
    cases h
    exact .inl ⟨rfl,rfl⟩
  | count n => cases h

theorem clientSide_recvFull {once : ℤ} {c : Client.Choice} {r : Option Content}
    (h : clientSide.exec (.recvFull once) () s c = some (r,s')) :
    (r = none ∧ s' = s) ∨ (0 ≤ once ∧ s.wire.received+once ≤ s.wire.sent.length ∧
      r = some ((s.wire.sent.drop s.wire.received).take once.toNat) ∧
      s' = s.setWire { s.wire with received := s.wire.received+once.toNat }) := by
  cases c with
  | ok =>
    have h' : (if 0 ≤ once ∧ s.wire.received+once ≤ s.wire.sent.length then
        some (some ((s.wire.sent.drop s.wire.received).take once.toNat),
          s.setWire { s.wire with received := s.wire.received+once.toNat })
        else none) = some (r,s') := h
    split at h'
    · rename_i hle
      cases h'
      exact .inr ⟨hle.1,hle.2,rfl,rfl⟩
    · cases h'
  | fault =>
    cases h
    exact .inl ⟨rfl,rfl⟩
  | count n => cases h

theorem clientSide_moves {o : Client.Op} {c : Client.Choice} {r : o.Res}
    (h : clientSide.exec o () s c = some (r,s')) : ClientMoves s s' := by
  by_cases ho : o.onWire = true
  · cases o <;> simp only [Client.Op.onWire,Bool.false_eq_true] at ho
    case recvFile =>
      obtain ⟨rfl,_⟩ := clientSide_recvFile h
      exact ⟨rfl,rfl,rfl,fun _ h => h⟩
    case sendFile p =>
      rcases clientSide_sendFile h with ⟨_,rfl⟩ | ⟨_,rfl⟩
      · exact ⟨rfl,rfl,rfl,fun _ h => h⟩
      · exact ⟨rfl,rfl,rfl,fun p hp => by simp [Link.setWire,hp]⟩
    case recvFull once =>
      rcases clientSide_recvFull h with ⟨_,rfl⟩ | ⟨_,_,_,rfl⟩ <;>
        exact ⟨rfl,rfl,rfl,fun _ h => h⟩
  · rw [clientSide_local (by simpa using ho)] at h
    obtain ⟨x,_,hx⟩ := Option.map_eq_some_iff.mp h
    cases hx
    exact ⟨rfl,rfl,rfl,fun _ h => h⟩

theorem serverSide_recvFile {lib : Library} {c : Choice} {r : Option FilePacket}
    (h : (serverSide lib).exec .recvFile () s c = some (r,s')) :
    s' = s ∧ ((c = .fault ∧ r = none) ∨ ∃ p, r = some p ∧ s.wire.offset = some p) := by
  cases c with
  | ok =>
    obtain ⟨p,hp,he⟩ := Option.map_eq_some_iff.mp
      (show s.wire.offset.map (fun p => (some p,s)) = some (r,s') from h)
    cases he
    exact ⟨rfl,.inr ⟨p,rfl,hp⟩⟩
  | fault =>
    cases h
    exact ⟨rfl,.inl ⟨rfl,rfl⟩⟩
  | count n => cases h
  | value n => cases h
  | bytes bs => cases h

theorem serverSide_sendFile {lib : Library} {p : FilePacket} {c : Choice} {r : Bool}
    (h : (serverSide lib).exec (.send (.file p)) () s c = some (r,s')) :
    (c = .fault ∧ r = false ∧ s' = s) ∨ (r = true ∧
      s' = s.setWire { s.wire with hello := s.wire.hello.or (some p) }) := by
  cases c with
  | ok =>
    cases h
    exact .inr ⟨rfl,rfl⟩
  | fault =>
    cases h
    exact .inl ⟨rfl,rfl,rfl⟩
  | count n => cases h
  | value n => cases h
  | bytes bs => cases h

theorem serverSide_sendfile {lib : Library} {pos count : ℤ} {c : Choice} {r : Content}
    (h : (serverSide lib).exec (.sendfile pos count) () s c = some (r,s')) :
    execute lib (.sendfile pos count) () s.world c = some (r,s.world) ∧
      s' = s.setWire { s.wire with sent := s.wire.sent ++ r } := by
  obtain ⟨⟨r₁,w⟩,hx,he⟩ := Option.map_eq_some_iff.mp
    (show (execute lib (.sendfile pos count) () s.world c).map (fun x =>
      (x.1,s.setWire { s.wire with sent := s.wire.sent ++ x.1 })) = some (r,s') from h)
  cases he
  rw [(execute_sendfile hx).1] at hx
  exact ⟨hx,rfl⟩

theorem serverSide_sendMapped {lib : Library} {pos once : ℤ} {c : Choice} {r : Content}
    (h : (serverSide lib).exec (.sendMapped pos once) () s c = some (r,s')) :
    execute lib (.sendfile pos once) () s.world c = some (r,s.world) ∧
      s' = s.setWire { s.wire with sent := s.wire.sent ++ r } := by
  obtain ⟨⟨r₁,w⟩,hx,he⟩ := Option.map_eq_some_iff.mp
    (show (execute lib (.sendMapped pos once) () s.world c).map (fun x =>
      (x.1,s.setWire { s.wire with sent := s.wire.sent ++ x.1 })) = some (r,s') from h)
  cases he
  have hx := execute_sendMapped hx
  rw [(execute_sendfile hx).1] at hx
  exact ⟨hx,rfl⟩

theorem serverSide_other {lib : Library} {o : Op} {c : Choice} {r : o.Res} (ho : o.onWire = false)
    (h : (serverSide lib).exec o () s c = some (r,s')) :
    execute lib o () s.world c = some (r,s'.world) ∧ s' = { s with world := s'.world } := by
  rw [serverSide_local ho] at h
  obtain ⟨⟨r₁,w⟩,hx,he⟩ := Option.map_eq_some_iff.mp h
  cases he
  exact ⟨hx,rfl⟩

theorem serverSide_moves {lib : Library} {o : Op} {c : Choice} {r : o.Res}
    (h : (serverSide lib).exec o () s c = some (r,s')) : ServerMoves s s' := by
  by_cases ho : o.onWire = true
  · cases o <;> simp only [Op.onWire,Bool.false_eq_true] at ho
    case recvFile =>
      obtain ⟨rfl,_⟩ := serverSide_recvFile h
      exact ⟨rfl,rfl,rfl,fun _ h => h,List.prefix_rfl⟩
    case send p =>
      cases p with
      | file p =>
        rcases serverSide_sendFile h with ⟨_,_,rfl⟩ | ⟨_,rfl⟩
        · exact ⟨rfl,rfl,rfl,fun _ h => h,List.prefix_rfl⟩
        · exact ⟨rfl,rfl,rfl,fun p hp => by simp [Link.setWire,hp],List.prefix_rfl⟩
      | _ =>
        obtain ⟨x,_,he⟩ := Option.map_eq_some_iff.mp (show (execute lib _ () s.world c).map
          (fun x => (x.1,{ s with world := x.2 })) = some (r,s') from h)
        cases he
        exact ⟨rfl,rfl,rfl,fun _ h => h,List.prefix_rfl⟩
    case sendfile pos count =>
      obtain ⟨_,rfl⟩ := serverSide_sendfile h
      exact ⟨rfl,rfl,rfl,fun _ h => h,List.prefix_append _ _⟩
    case sendMapped pos once =>
      obtain ⟨_,rfl⟩ := serverSide_sendMapped h
      exact ⟨rfl,rfl,rfl,fun _ h => h,List.prefix_append _ _⟩
  · rw [(serverSide_other (by simpa using ho) h).2]
    exact ⟨rfl,rfl,rfl,fun _ h => h,List.prefix_rfl⟩

theorem clientMoves_refl (s : Link) : ClientMoves s s := ⟨rfl,rfl,rfl,fun _ h => h⟩

theorem clientMoves_trans (s t u : Link) (h : ClientMoves s t) (h' : ClientMoves t u) :
    ClientMoves s u where
  world := h'.world.trans h.world
  hello := h'.hello.trans h.hello
  sent := h'.sent.trans h.sent
  offset := fun p hp => h'.offset p (h.offset p hp)

theorem serverMoves_refl (s : Link) : ServerMoves s s :=
  ⟨rfl,rfl,rfl,fun _ h => h,List.prefix_rfl⟩

theorem serverMoves_trans (s t u : Link) (h : ServerMoves s t) (h' : ServerMoves t u) :
    ServerMoves s u where
  files := h'.files.trans h.files
  offset := h'.offset.trans h.offset
  received := h'.received.trans h.received
  hello := fun p hp => h'.hello p (h.hello p hp)
  sent := h.sent.trans h'.sent

end Moves

end WindCloud
