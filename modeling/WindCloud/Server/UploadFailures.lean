import WindCloud.Server.Failures
import WindCloud.Server.SqlServer
import WindCloud.Server.StorePaths
import WindCloud.Server.UploadRuns

/-!
# An upload one of whose statements fails

An upload moves its content before it touches the tables. What is left of the
tables after a failure depends on the statement, on whether the hash is known
and on whether the server's own address can be registered.
-/

set_option autoImplicit false

namespace WindCloud
open CString Effect Function

/-- The address of this server fits into the columns of a source and is not empty. -/
def registrable (address : Text × Text) : Bool :=
  decide (address.1.length < 64 ∧ address.2.length < 16 ∧ address.1 ≠ [] ∧ address.2 ≠ [])

namespace Statement

/-- Statements that leave an upload half entered when they fail. -/
def spoiling : Statement → Bool
  | addRefCount _ | upsertSource _ _ _ => true
  | _ => false

end Statement

section Entries

variable {ι : Type} [DecidableEq ι] {lib : Library} {ok : Op → World ι → Choice → Prop} {i : ι}
  {w : World ι} {n fileId : ℕ} {β : Type} {ctx : ClientContext} {path fileName : Text}

/-- What `get_current_server_address` makes of the configured address. -/
def ownAddress (address : Text × Text) : Option (Text × Text) :=
  match bounded 64 address.1, bounded 16 address.2 with
  | some ip, some port => some (ip,port)
  | _, _ => none

theorem solo_address {f : Option (Text × Text) → Server β} {Q : β → World ι → Prop}
    (h : Solo lib ok i (f (ownAddress w.node.address)) Q w) :
    Solo lib ok i (getCurrentServerAddress 64 16 >>= f) Q w := by
  intro c r w₁ _ hx
  obtain ⟨rfl,rfl⟩ : r = w.node.address ∧ w₁ = w := by
    cases c <;> cases hx
    exact ⟨rfl,rfl⟩
  have hpure : (match bounded 64 w₁.node.address.1, bounded 16 w₁.node.address.2 with
      | some ip, some port => pure (some (ip,port))
      | _, _ => pure none : Server (Option (Text × Text))) = pure (ownAddress w₁.node.address) := by
    unfold ownAddress
    cases bounded 64 w₁.node.address.1 <;> cases bounded 16 w₁.node.address.2 <;> rfl
  have hnext : Solo lib ok i ((pure (ownAddress w₁.node.address) : Server _) >>= f) Q w₁ := h
  rw [← hpure] at hnext
  exact hnext

theorem ownAddress_registrable (address : Text × Text) : registrable address = true ↔
    ∃ ip port, ownAddress address = some (ip,port) ∧ ip ≠ [] ∧ port ≠ [] := by
  unfold registrable ownAddress bounded
  rw [decide_eq_true_eq]
  constructor
  · rintro ⟨hip,hport,hne,hne'⟩
    rw [if_pos hip,if_pos hport]
    exact ⟨_,_,rfl,hne,hne'⟩
  · rintro ⟨ip,port,ha,hne,hne'⟩
    split at ha
    · rename_i h h'
      obtain ⟨rfl,rfl⟩ := Prod.mk.inj (Option.some.inj ha)
      obtain ⟨rfl,hip⟩ := bounded_eq_some.mp h
      obtain ⟨rfl,hport⟩ := bounded_eq_some.mp h'
      exact ⟨hip,hport,hne,hne'⟩
    · cases ha

theorem solo_recordSource (hok : StatementsHold ok) (hid : fileId ≠ 0) :
    Solo lib ok i (registerSource fileId) (fun done w' => w'.told i = w.told i ∧
      w'.db.paths = w.db.paths ∧ w'.db.files = w.db.files ∧
      (done = true ↔ registrable w.node.address = true)) w := by
  refine solo_address ?_
  rw [ownAddress_registrable]
  rcases ha : ownAddress w.node.address with _ | ⟨ip,port⟩
  · exact ⟨rfl,rfl,rfl,iff_of_false Bool.false_ne_true (by simp)⟩
  · unfold daoFileSourceUpsert
    dsimp only
    split
    · rename_i hbad
      refine ⟨rfl,rfl,rfl,iff_of_false Bool.false_ne_true ?_⟩
      rintro ⟨ip',port',he,hne,hne'⟩
      obtain ⟨rfl,rfl⟩ := Prod.mk.inj (Option.some.inj he)
      rcases hbad with h0 | h0 | h0
      · exact hid h0
      · exact hne h0
      · exact hne' h0
    · rename_i hgood
      refine solo_statement hok ⟨rfl,by simp [Statement.exec],by simp [Statement.exec],iff_of_true rfl ?_⟩
      exact ⟨ip,port,rfl,fun h0 => hgood (.inr (.inl h0)),fun h0 => hgood (.inr (.inr h0))⟩

theorem solo_linkPath (hok : StatementsHold ok) (hid : fileId ≠ 0) (needAddRef : Bool) :
    Solo lib ok i (linkUpload ctx path fileName fileId needAddRef) (fun done w' =>
      w'.told i = w.told i ∧ w'.db.files.length = w.db.files.length ∧
        ((w.db.nodeAt ctx.userId path).isSome = true → done = false ∧ w'.db = w.db) ∧
        (w.db.nodeAt ctx.userId path = none → w'.db.paths.length = w.db.paths.length+1 ∧
          (done = true ↔ registrable w.node.address = true))) w := by
  unfold linkUpload createUserFileLink
  rw [bind_assoc]
  refine solo_sql hok ?_
  cases hn : w.db.nodeAt ctx.userId path with
  | some r =>
    rw [createFileNode_taken hn]
    exact ⟨rfl,rfl,fun _ => ⟨rfl,rfl⟩,fun hv => absurd hv (Option.some_ne_none r)⟩
  | none =>
    rw [createFileNode_vacant hn]
    have hsource : ∀ v : World ι, v.told i = w.told i → v.node.address = w.node.address →
        v.db.files.length = w.db.files.length → v.db.paths.length = w.db.paths.length+1 →
        Solo lib ok i (registerSource fileId) (fun done w' => w'.told i = w.told i ∧
          w'.db.files.length = w.db.files.length ∧
            ((none : Option PathRow).isSome = true → done = false ∧ w'.db = w.db) ∧
            ((none : Option PathRow) = none → w'.db.paths.length = w.db.paths.length+1 ∧
              (done = true ↔ registrable w.node.address = true))) v := by
      intro v ht ha hf hp
      refine Machine.wlp_mono _ ?_ (solo_recordSource hok hid)
      rintro done w' ⟨ht',hp',hf',hd⟩
      refine ⟨ht'.trans ht,by rw [hf',hf],fun hs => absurd hs Bool.false_ne_true,fun _ => ?_⟩
      rw [hp',← ha]
      exact ⟨hp,hd⟩
    cases needAddRef with
    | false => exact hsource _ rfl rfl rfl (by simp)
    | true =>
      refine solo_bind (solo_statement hok ?_)
      exact hsource _ rfl rfl (by simp [Statement.exec,Db.addRef]) (by simp [Statement.exec])

theorem faulted_linkPath (hok : StatementsHold ok) (hn : w.db.nodeAt ctx.userId path = none)
    (needAddRef : Bool) :
    Faulted lib ok i (linkUpload ctx path fileName fileId needAddRef) n (fun F done w' =>
      w'.told i = w.told i ∧ done = false ∧
        ((∃ u p d f, F = .createFileNode u p d f fileId) ∧ w'.db = w.db ∨
          F.spoiling = true ∧ w'.db.paths.length = w.db.paths.length+1)) w := by
  unfold linkUpload createUserFileLink
  rw [bind_assoc]
  refine faulted_sql hok (fun _ => ⟨rfl,rfl,.inl ⟨⟨_,_,_,_,rfl⟩,rfl⟩⟩) fun m _ => ?_
  rw [createFileNode_vacant hn]
  have hsource : ∀ (v : World ι) k, v.told i = w.told i →
      v.db.paths.length = w.db.paths.length+1 →
      Faulted lib ok i (registerSource fileId) k (fun F done w' => w'.told i = w.told i ∧
        done = false ∧ ((∃ u p d f, F = .createFileNode u p d f fileId) ∧ w'.db = w.db ∨
          F.spoiling = true ∧ w'.db.paths.length = w.db.paths.length+1)) v := by
    intro v k ht hp
    refine faulted_after (getCurrentServerAddress_uses (fun o => o.hushed = true) rfl _ _)
      fun r v' h' => ?_
    rcases r with _ | ⟨ip,port⟩
    · exact faulted_never trivial
    · unfold daoFileSourceUpsert
      dsimp only
      split
      · exact faulted_never trivial
      · exact faulted_statement hok fun _ =>
          ⟨h'.told.trans ht,rfl,.inr ⟨rfl,by rw [h'.db]; exact hp⟩⟩
  cases needAddRef with
  | false => exact hsource _ m rfl (by simp)
  | true =>
    refine faulted_sql hok (fun _ => ⟨rfl,rfl,.inr ⟨rfl,by simp⟩⟩) fun k _ => ?_
    exact hsource _ k rfl (by simp [Statement.exec])

theorem known_positive {db : Db} {h : Text} {e : ℕ × ℤ} (hk : db.Keyed)
    (hf : db.known h = some e) : e.1 ≠ 0 := (known_refused hk hf 0).2

/-- The tables are as they were after an upload that could not be entered although
every statement held. -/
def Unentered (ctx : ClientContext) (path h : Text) (size : ℤ) (w : World ι) : Prop :=
  w.db.admits h size = false ∧ ((w.db.known h).isSome = true →
    registrable w.node.address = true ∨ (w.db.nodeAt ctx.userId path).isSome = true)

theorem solo_dbWork (hok : StatementsHold ok) (hk : w.db.Keyed) (h : Text) (size : ℤ) :
    Solo lib ok i (finishUploadDbWork ctx path fileName h size) (fun done w' =>
      w'.told i = w.told i ∧
        (done = false → (SameRows w.db w'.db ↔ Unentered ctx path h size w))) w := by
  unfold finishUploadDbWork
  refine solo_insert hok (fun ha => ?_) fun ha => ?_
  · refine solo_sql hok ?_
    rw [Statement.exec_reads rfl]
    cases hknown : w.db.known h with
    | none =>
      have hread : ((Statement.fileBySha256 h).exec w.db).1 = none := hknown
      rw [hread]
      exact ⟨rfl,fun _ => iff_of_true (sameRows_refl _) ⟨ha,by simp [hknown]⟩⟩
    | some e =>
      have hread : ((Statement.fileBySha256 h).exec w.db).1 = some e := hknown
      rw [hread]
      refine Machine.wlp_mono _ ?_ (solo_linkPath hok (known_positive hk hknown) true)
      rintro done w' ⟨ht,-,htaken,hvacant⟩
      refine ⟨ht,fun hd => ?_⟩
      cases hn : w.db.nodeAt ctx.userId path with
      | some r =>
        rw [(htaken (by rw [hn]; rfl)).2]
        exact iff_of_true (sameRows_refl _) ⟨ha,fun _ => .inr (by rw [hn]; rfl)⟩
      | none =>
        obtain ⟨hlong,hreg⟩ := hvacant hn
        refine iff_of_false (sameRows_paths (hlong.trans_ne (Nat.succ_ne_self _))) fun hu => ?_
        rcases hu.2 (by rw [hknown]; rfl) with hr | hr
        · exact Bool.false_ne_true (hd.symm.trans (hreg.mpr hr))
        · rw [hn] at hr
          exact Bool.false_ne_true hr
  · have hmore := (entered_longer ha).1
    have hspoiled : ∀ {done : Bool} {w' : World ι}, w'.db.files.length = w.db.files.length+1 →
        done = false → (SameRows w.db w'.db ↔ Unentered ctx path h size w) :=
      fun hlen _ => iff_of_false (sameRows_files (by omega))
        fun hu => Bool.false_ne_true (hu.1.symm.trans ha)
    cases hfound : (w.db.entered h size).known h with
    | none =>
      refine solo_sql hok ?_
      rw [Statement.exec_reads rfl]
      have hread : ((Statement.fileBySha256 h).exec (w.db.entered h size)).1 = none := hfound
      dsimp only
      rw [hread]
      exact ⟨rfl,fun hd => hspoiled hmore hd⟩
    | some e =>
      have hpos := known_positive (keyed_exec hk (.insertFile h size)) hfound
      refine Machine.wlp_mono _ ?_ (solo_linkPath hok hpos false)
      rintro done w' ⟨ht,hlen,-⟩
      exact ⟨ht,fun hd => hspoiled (hlen.trans hmore) hd⟩

/-- The tables are as they were after the failure of a statement among the entries. -/
def Intact (h : Text) (size : ℤ) (w : World ι) : Statement → Prop
  | .insertFile _ _ => (w.db.known h).isSome = true → registrable w.node.address = true
  | .fileBySha256 _ | .createFileNode _ _ _ _ _ => w.db.admits h size = false
  | .addRefCount _ | .upsertSource _ _ _ => False
  | _ => True

omit [DecidableEq ι] in
theorem spoiling_intact {F : Statement} (hF : F.spoiling = true) (h : Text) (size : ℤ)
    (w : World ι) : ¬Intact h size w F := by
  cases F <;> first | exact id | cases hF

theorem solo_relink (hok : StatementsHold ok) (hk : w.db.Keyed)
    (hn : w.db.nodeAt ctx.userId path = none) (h : Text) (size : ℤ) :
    Solo lib ok i (daoFileFindBySha256 h >>= fun r => match r with
      | none => pure false
      | some (fileId,_) => linkUpload ctx path fileName fileId true) (fun done w' =>
        w'.told i = w.told i ∧ (done = false →
          (SameRows w.db w'.db ↔ Intact h size w (.insertFile h size)))) w := by
  refine solo_sql hok ?_
  rw [Statement.exec_reads rfl]
  cases hknown : w.db.known h with
  | none =>
    have hread : ((Statement.fileBySha256 h).exec w.db).1 = none := hknown
    rw [hread]
    exact ⟨rfl,fun _ => iff_of_true (sameRows_refl _) fun hs => by simp [hknown] at hs⟩
  | some e =>
    have hread : ((Statement.fileBySha256 h).exec w.db).1 = some e := hknown
    rw [hread]
    refine Machine.wlp_mono _ ?_ (solo_linkPath hok (known_positive hk hknown) true)
    rintro done w' ⟨ht,-,-,hvacant⟩
    obtain ⟨hlong,hreg⟩ := hvacant hn
    refine ⟨ht,fun hd => iff_of_false (sameRows_paths (hlong.trans_ne (Nat.succ_ne_self _))) ?_⟩
    intro hs
    exact Bool.false_ne_true (hd.symm.trans (hreg.mpr (hs (by rw [hknown]; rfl))))

theorem faulted_dbWork (hok : StatementsHold ok) (hk : w.db.Keyed)
    (hn : w.db.nodeAt ctx.userId path = none) (h : Text) (size : ℤ) :
    Faulted lib ok i (finishUploadDbWork ctx path fileName h size) n (fun F done w' =>
      w'.told i = w.told i ∧ (done = false → (SameRows w.db w'.db ↔ Intact h size w F))) w := by
  have hlink : ∀ (v : World ι) m fileId needAddRef, v.told i = w.told i →
      v.db.nodeAt ctx.userId path = none → v.db.paths = w.db.paths →
      (SameRows w.db v.db ↔ w.db.admits h size = false) →
      Faulted lib ok i (linkUpload ctx path fileName fileId needAddRef) m (fun F done w' =>
        w'.told i = w.told i ∧
          (done = false → (SameRows w.db w'.db ↔ Intact h size w F))) v := by
    intro v m fileId needAddRef ht hv hp hrows
    refine faulted_mono ?_ (faulted_linkPath hok hv needAddRef)
    rintro F done w' ⟨ht',-,⟨⟨u,p,d,f,rfl⟩,hdb⟩ | ⟨hF,hlong⟩⟩
    · refine ⟨ht'.trans ht,fun _ => ?_⟩
      rw [hdb]
      exact hrows
    · refine ⟨ht'.trans ht,fun _ => iff_of_false (sameRows_paths ?_) (spoiling_intact hF h size w)⟩
      rw [hlong,hp]
      exact Nat.succ_ne_self _
  unfold finishUploadDbWork
  refine faulted_insert hok (fun _ => solo_relink hok hk hn h size) (fun ha m _ => ?_)
    (fun ha _ => ?_) fun ha m _ => ?_
  · refine faulted_sql hok (fun _ => ?_) fun k _ => ?_
    · exact ⟨rfl,fun _ => iff_of_true (sameRows_refl _) ha⟩
    · rw [Statement.exec_reads rfl]
      rcases ((Statement.fileBySha256 h).exec w.db).1 with _ | e
      · exact faulted_never trivial
      · exact hlink _ k e.1 true rfl hn rfl (iff_of_true (sameRows_refl _) ha)
  · have hmore := (entered_longer ha).1
    have hspoiled : ∀ {done : Bool} {w' : World ι},
        w'.db.files.length = w.db.files.length+1 → done = false →
        (SameRows w.db w'.db ↔ w.db.admits h size = false) :=
      fun hlen _ => iff_of_false (sameRows_files (by omega))
        fun hu => Bool.false_ne_true (hu.symm.trans ha)
    refine solo_sql hok ?_
    rw [Statement.exec_reads rfl]
    dsimp only
    cases hfound : ((Statement.fileBySha256 h).exec (w.db.entered h size)).1 with
    | none => exact ⟨rfl,fun hd => hspoiled hmore hd⟩
    | some e =>
      have hpos := known_positive (keyed_exec hk (.insertFile h size)) hfound
      refine Machine.wlp_mono _ ?_ (solo_linkPath hok hpos true)
      rintro done w' ⟨ht,hlen,-⟩
      exact ⟨ht,fun hd => hspoiled (hlen.trans hmore) hd⟩
  · obtain ⟨hmore,hpaths⟩ := entered_longer ha
    have hdiffers : SameRows w.db (w.db.entered h size) ↔ w.db.admits h size = false :=
      iff_of_false (sameRows_files (by omega)) fun hu => Bool.false_ne_true (hu.symm.trans ha)
    have hvacant : (w.db.entered h size).nodeAt ctx.userId path = none := by
      unfold Db.nodeAt
      rw [hpaths]
      exact hn
    cases (w.db.entered h size).known h with
    | none =>
      refine faulted_sql hok (fun _ => ⟨rfl,fun _ => hdiffers⟩) fun k _ => ?_
      rw [Statement.exec_reads rfl]
      dsimp only
      rcases ((Statement.fileBySha256 h).exec (w.db.entered h size)).1 with _ | e
      · exact faulted_never trivial
      · exact hlink _ k e.1 true rfl hvacant hpaths hdiffers
    | some e => exact hlink _ m e.1 false rfl hvacant hpaths hdiffers

end Entries

section Uploads

variable {ι : Type} [DecidableEq ι] {lib : Library} {ok : Op → World ι → Choice → Prop} {i : ι}
  {w v : World ι} {n : ℕ} {ctx : ClientContext} {arg fullPath fileName : Text} {packet : FilePacket}

theorem hush_close : Hush close := ⟨rfl,fun _ => trivial⟩

omit [DecidableEq ι] in
theorem unentered_hushed (hv : Hushed i w v) (h : Text) (size : ℤ) :
    Unentered ctx fullPath h size v ↔ Unentered ctx fullPath h size w := by
  unfold Unentered
  rw [hv.db,hv.address]

omit [DecidableEq ι] in
theorem intact_hushed (hv : Hushed i w v) (h : Text) (size : ℤ) (F : Statement) :
    Intact h size v F ↔ Intact h size w F := by
  cases F <;> simp only [Intact,hv.db,hv.address]

/-- What is left when the search before the content failed. -/
abbrev Searched (i : ι) (w : World ι) (ctx : ClientContext) (path : Text) (packet : FilePacket) :
    World ι → Prop :=
  Judged i w fun db' p => SameRows w.db db' ↔
    (p = unwritten → Unentered ctx path packet.hash packet.fileSize w)

theorem solo_complete (hok : StatementsHold ok) (hk : w.db.Keyed) (hv : Hushed i w v) :
    Solo lib ok i (completeUpload ctx fullPath fileName packet)
      (fun _ w' => Searched i w ctx fullPath packet w') v := by
  rw [← hv.db] at hk
  refine solo_bind (Machine.wlp_mono _ ?_ (solo_dbWork hok hk packet.hash packet.fileSize))
  rintro done w' ⟨ht,hrows⟩
  cases done with
  | true => exact solo_told_close (ht.trans hv.told) fun hs => absurd (by decide) hs
  | false =>
    refine solo_told_close (ht.trans hv.told) fun _ => ?_
    have hsame := hrows rfl
    rw [unentered_hushed hv,hv.db] at hsame
    exact hsame.trans (imp_iff_right rfl).symm

theorem faulted_complete (hok : StatementsHold ok) (hk : w.db.Keyed) (hv : Hushed i w v)
    (hn : w.db.nodeAt ctx.userId fullPath = none) :
    Faulted lib ok i (completeUpload ctx fullPath fileName packet) n (fun F _ w' => Judged i w
      (fun db' _ => SameRows w.db db' ↔ Intact packet.hash packet.fileSize w F) w') v := by
  rw [← hv.db] at hk hn
  refine faulted_then ?_ (faulted_mono ?_ (faulted_dbWork hok hk hn packet.hash packet.fileSize))
  · intro done
    cases done <;> exact ⟨rfl,fun _ => ⟨rfl,fun _ => trivial⟩⟩
  · rintro F done w' ⟨ht,hrows⟩
    cases done with
    | true => exact solo_told_close (ht.trans hv.told) fun hs => absurd (by decide) hs
    | false =>
      refine solo_told_close (ht.trans hv.told) fun _ => ?_
      have hsame := hrows rfl
      rw [intact_hushed hv,hv.db] at hsame
      exact hsame

theorem solo_content (hok : StatementsHold ok) (hk : w.db.Keyed) (hv : Hushed i w v) :
    Solo lib ok i (uploadContent ctx arg fullPath fileName packet)
      (fun _ w' => Searched i w ctx fullPath packet w') v := by
  refine upload_walk (P := fun p => ∀ u, Hushed i w u →
    Solo lib ok i p (fun _ w' => Searched i w ctx fullPath packet w') u)
    (fun p f hp hf u hu => solo_after hp fun a u' h => hf a u' (hushed_trans hu h))
    (fun msg hmsg => ?_) (fun u hu => ?_) (fun u hu => solo_complete hok hk hu) v hv
  · have hgood : ∀ u, Hushed i w u → (SameRows w.db u.db ↔
        (initCommandPacket .reply msg = unwritten →
          Unentered ctx fullPath packet.hash packet.fileSize w)) := by
      intro u hu
      rw [hu.db]
      exact iff_of_true (sameRows_refl _) fun he => absurd he hmsg
    exact ⟨fun u hu => solo_told hu.told fun _ => hgood u hu,
      fun u hu => solo_told_close hu.told fun _ => hgood u hu⟩
  · exact solo_hushed hush_close fun _ w' h => judged_untold (h.told.trans hu.told)

theorem faulted_content (hok : StatementsHold ok) (hk : w.db.Keyed) (hv : Hushed i w v)
    (hn : w.db.nodeAt ctx.userId fullPath = none) :
    Faulted lib ok i (uploadContent ctx arg fullPath fileName packet) n (fun F _ w' => Judged i w
      (fun db' _ => SameRows w.db db' ↔ Intact packet.hash packet.fileSize w F) w') v := by
  refine upload_walk (P := fun p => ∀ u, Hushed i w u →
    Faulted lib ok i p n (fun F _ w' => Judged i w
      (fun db' _ => SameRows w.db db' ↔ Intact packet.hash packet.fileSize w F) w') u)
    (fun p f hp hf u hu => faulted_after hp fun a u' h => hf a u' (hushed_trans hu h))
    (fun msg _ => ?_) (fun u _ => ?_) (fun u hu => faulted_complete hok hk hu hn) v hv
  · exact ⟨fun _ _ => faulted_never ⟨rfl,fun _ => trivial⟩,
      fun _ _ => faulted_never ⟨rfl,fun _ => ⟨rfl,fun _ => trivial⟩⟩⟩
  · exact faulted_never ⟨rfl,fun _ => trivial⟩

theorem solo_instant (hok : StatementsHold ok) (hv : Hushed i w v) (fileId : ℕ) :
    Solo lib ok i (instantUpload ctx arg fullPath fileName packet fileId)
      (fun _ w' => Searched i w ctx fullPath packet w') v := by
  unfold instantUpload createUserFileLink
  rw [bind_assoc]
  refine solo_sql hok ?_
  cases hn : v.db.nodeAt ctx.userId fullPath with
  | some r =>
    rw [createFileNode_taken hn]
    refine solo_told hv.told fun _ => ?_
    dsimp only
    rw [hv.db]
    exact iff_of_true (sameRows_refl _) fun he => absurd he (by decide)
  | none =>
    rw [createFileNode_vacant hn]
    refine solo_bind (solo_statement hok ?_)
    exact solo_hushed ⟨rfl,fun _ => trivial⟩ fun _ w' h => judged_untold (h.told.trans hv.told)

theorem faulted_instant (hok : StatementsHold ok) (hk : w.db.Keyed) (hv : Hushed i w v)
    (hn : w.db.nodeAt ctx.userId fullPath = none) {e : ℕ × ℤ}
    (hknown : w.db.known packet.hash = some e) :
    Faulted lib ok i (instantUpload ctx arg fullPath fileName packet e.1) n (fun F _ w' =>
      Judged i w (fun db' _ => SameRows w.db db' ↔ Intact packet.hash packet.fileSize w F) w')
      v := by
  unfold instantUpload createUserFileLink
  rw [bind_assoc]
  refine faulted_sql hok (fun _ => ?_) fun m _ => ?_
  · refine solo_told hv.told fun _ => ?_
    rw [hv.db]
    exact iff_of_true (sameRows_refl _) (known_refused hk hknown packet.fileSize).1
  · rw [← hv.db] at hn
    rw [createFileNode_vacant hn,if_pos rfl,if_pos rfl]
    refine faulted_sql hok (fun _ => ?_) fun k _ => faulted_never ⟨rfl,fun _ => trivial⟩
    refine solo_told hv.told fun _ => iff_of_false ?_ id
    dsimp only
    rw [hv.db]
    exact addPath_longer

theorem hush_ready (h : Text) (size : ℤ) : Hush (checkStoreFileReady h size) :=
  checkStoreFileReady_uses (fun o => o.hushed = true) rfl (fun _ => rfl) h size

theorem solo_store (hok : StatementsHold ok) (hk : w.db.Keyed) :
    Solo lib ok i (storeContent ctx arg fullPath fileName packet)
      (fun _ w' => Searched i w ctx fullPath packet w') w := by
  refine solo_sql hok ?_
  rw [Statement.exec_reads rfl]
  rcases ((Statement.fileBySha256 packet.hash).exec w.db).1 with _ | e
  · exact solo_content hok hk (hushed_refl w)
  refine solo_after (hush_ready _ _) fun ready v hv => ?_
  rcases ready with _ | _ | _
  · refine solo_told hv.told fun _ => ?_
    rw [hv.db]
    exact iff_of_true (sameRows_refl _) fun he => absurd he (by decide)
  · exact solo_content hok hk hv
  · exact solo_instant hok hv e.1

theorem faulted_store (hok : StatementsHold ok) (hk : w.db.Keyed)
    (hn : w.db.nodeAt ctx.userId fullPath = none) :
    Faulted lib ok i (storeContent ctx arg fullPath fileName packet) n (fun F _ w' => Judged i w
      (fun db' p => SameRows w.db db' ↔
        if n = 0 then p = unwritten → Unentered ctx fullPath packet.hash packet.fileSize w
        else Intact packet.hash packet.fileSize w F) w') w := by
  refine faulted_sql hok (fun h0 => ?_) fun m hm => ?_
  · simp only [if_pos h0]
    exact solo_content hok hk (hushed_refl w)
  have hne : n ≠ 0 := by omega
  simp only [if_neg hne]
  rw [Statement.exec_reads rfl]
  cases hread : ((Statement.fileBySha256 packet.hash).exec w.db).1 with
  | none => exact faulted_content hok hk (hushed_refl w) hn
  | some e =>
    refine faulted_after (hush_ready _ _) fun ready v hv => ?_
    rcases ready with _ | _ | _
    · exact faulted_never ⟨rfl,fun _ => trivial⟩
    · exact faulted_content hok hk hv hn
    · exact faulted_instant hok hk hv hn hread

theorem faulted_recvFile {β : Type} {f : Option FilePacket → Server β}
    {Q : Statement → β → World ι → Prop} (hfail : Faulted lib ok i (f none) n Q w)
    (hgot : Faulted lib ok i (f (some (w.node.conn i).hello)) n Q w) :
    Faulted lib ok i (perform .recvFile >>= f) n Q w := by
  intro c r w₁ _ hx
  obtain ⟨rfl | rfl,rfl⟩ := execute_recvFile hx
  · exact hgot
  · exact hfail

/-- What an upload leaves when one of its statements fails. -/
theorem faulted_puts (hok : StatementsHold ok) (hk : w.db.Keyed) (ctx : ClientContext)
    (arg : Text) :
    Faulted lib ok i (handlePuts ctx arg) n (fun F _ w' => Judged i w
      (fun db' p => SameRows w.db db' ↔
        if n ≤ 1 then p = unwritten → Unentered ctx (absPath ctx.currentPath arg)
          (w.node.conn i).hello.hash (w.node.conn i).hello.fileSize w
        else Intact (w.node.conn i).hello.hash (w.node.conn i).hello.fileSize w F) w') w := by
  have hreply : ∀ msg, (sendMsg msg).Uses fun o => o.isSql = false :=
    fun _ => ⟨rfl,fun _ => trivial⟩
  refine faulted_recvFile (faulted_never (hreply _)) ?_
  generalize (w.node.conn i).hello = packet
  dsimp only
  cases hpath : buildFullVirtualPath fullPathLen ctx arg with
  | none => exact faulted_never (hreply _)
  | some fullPath =>
    have hroot := fullVirtualPath_ne_root hpath
    obtain ⟨rfl,-⟩ := transferFullPath_eq hpath
    refine faulted_strcpy ?_
    split
    · unfold daoGetNodeByPath
      rw [if_neg hroot]
      refine faulted_sql hok (fun h0 => ?_) fun m hm => ?_
      · have hle : n ≤ 1 := by omega
        simp only [if_pos hle]
        dsimp only [Statement.failed]
        split
        · refine solo_told rfl fun _ => ?_
          exact iff_of_true (sameRows_refl _) fun he => absurd he (by decide)
        · exact solo_store hok hk
      · simp only [Statement.exec]
        cases hnode : w.db.nodeAt ctx.userId (absPath ctx.currentPath arg) with
        | some r => exact faulted_never ⟨rfl,fun _ => ⟨rfl,fun _ => trivial⟩⟩
        | none =>
          dsimp only [Option.map]
          split
          · exact faulted_never (hreply _)
          · have hcount : n ≤ 1 ↔ m = 0 := by omega
            simp only [hcount]
            exact faulted_store hok hk hnode
    · exact faulted_never (hreply _)

end Uploads

/-- The commands that change the entries of files. -/
inductive Edit where
  | puts (arg : Text)
  | touch (arg : Text)
  | rm (arg : Text)
  deriving DecidableEq, Repr

namespace Edit

def program (ctx : ClientContext) : Edit → Server Unit
  | puts arg => handlePuts ctx arg
  | touch arg => handleTouch ctx arg
  | rm arg => handleRm ctx arg

variable {ι : Type}

/-- Statement number `n`, which is `F`, fails, and the client reads `p`. This leaves the
tables as they were. The first two statements of an upload only look around, and it goes
on as if they had found nothing; then only `p` tells how far it has come. -/
def Harmless (i : ι) (w : World ι) (ctx : ClientContext) (n : ℕ) (F : Statement) (p : Packet) :
    Edit → Prop
  | puts arg =>
    if n ≤ 1 then p = unwritten → Unentered ctx (absPath ctx.currentPath arg)
      (w.node.conn i).hello.hash (w.node.conn i).hello.fileSize w
    else Intact (w.node.conn i).hello.hash (w.node.conn i).hello.fileSize w F
  | touch _ => F.counting = false
  | rm _ => F.deciding = false

end Edit

namespace FailedEntry

def world : World Unit := TwoUploads.world Unit

def ctx : ClientContext := ⟨1,"/".toList,0⟩

/-- The last statement of an upload, the one for its sources, fails. -/
def replies : List Choice := List.replicate 9 .ok ++ [.count 2,.count 2] ++ List.replicate 6 .ok

def last : Statement := .upsertSource 1 "127.0.0.1".toList "9090".toList

def flawless : Op → World Unit → Choice → Bool :=
  understood caseless fun _ _ c => decide (c ≠ .fault)

theorem flawless_statements : StatementsHold (Checked flawless) := by
  intro t w c hc
  exact of_decide_eq_true (understood_check hc)

end FailedEntry

end WindCloud
