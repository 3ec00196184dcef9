import WindCloud.Server.TableOps

/-!
# What `ls` shows

The listing of a directory goes through the array of `handle_ls` into the packet
of the reply, which is smaller. A client sees every child exactly when the
listing, up to the last name in it, fits into the packet.
-/

set_option autoImplicit false

namespace WindCloud
open CString Effect

/-- A name as it has to be seen, a directory's with its mark. -/
def marked (name : Text) (type : ℕ) : Text := if type = 1 then name ++ ['/'] else name

def beforeName (type : ℕ) : Text := if type = 1 then "\x1b[1;34m".toList else []

def behindName (type : ℕ) : Text := if type = 1 then "\x1b[0m ".toList else [' ']

theorem listEntry_eq (name : Text) (type : ℕ) :
    listEntry name type = beforeName type ++ marked name type ++ behindName type := by
  unfold listEntry beforeName marked behindName
  split
  · rw [List.append_assoc,List.append_assoc,List.append_assoc]
    rfl
  · rfl

/-- The text shows each of the children once and whole, one behind the other;
of what follows the last name something may be missing. -/
inductive Shows : List (Text × ℕ) → Text → Prop
  | last (name : Text) (type : ℕ) {rest : Text} (h : rest <+: behindName type) :
      Shows [(name,type)] (beforeName type ++ marked name type ++ rest)
  | next (name : Text) (type : ℕ) {rows : List (Text × ℕ)} {text : Text} (h : Shows rows text) :
      Shows ((name,type)::rows) (listEntry name type ++ text)

def listing (rows : List (Text × ℕ)) : Text := rows.flatMap fun e => listEntry e.1 e.2

/-- The listing up to the last name. -/
def throughLastName : List (Text × ℕ) → Text
  | [] => []
  | [(name,type)] => beforeName type ++ marked name type
  | (name,type)::e::rows => listEntry name type ++ throughLastName (e::rows)

section Texts

variable {rows : List (Text × ℕ)} {text : Text}

theorem listing_split (hrows : rows ≠ []) :
    ∃ type, listing rows = throughLastName rows ++ behindName type := by
  induction rows with
  | nil => exact absurd rfl hrows
  | cons e rows ih =>
    obtain ⟨name,type⟩ := e
    cases rows with
    | nil =>
      refine ⟨type,?_⟩
      rw [listing,List.flatMap_cons,List.flatMap_nil,List.append_nil,listEntry_eq]
      rfl
    | cons e rows =>
      obtain ⟨last,hlast⟩ := ih (by simp)
      refine ⟨last,?_⟩
      rw [throughLastName,List.append_assoc,← hlast]
      rfl

theorem shows_iff (hrows : rows ≠ []) :
    Shows rows text ↔ throughLastName rows <+: text ∧ text <+: listing rows := by
  induction rows generalizing text with
  | nil => exact absurd rfl hrows
  | cons e rows ih =>
    obtain ⟨name,type⟩ := e
    cases rows with
    | nil =>
      rw [listing,List.flatMap_cons,List.flatMap_nil,List.append_nil,listEntry_eq]
      constructor
      · intro h
        cases h with
        | last _ _ h =>
          exact ⟨List.prefix_append _ _,(List.prefix_append_right_inj _).mpr h⟩
        | next _ _ h => cases h
      · rintro ⟨⟨rest,rfl⟩,hall⟩
        exact .last name type ((List.prefix_append_right_inj _).mp hall)
    | cons e rows =>
      rw [listing,List.flatMap_cons]
      constructor
      · intro h
        cases h with
        | next _ _ h =>
          obtain ⟨hlast,hall⟩ := (ih (by simp)).mp h
          exact ⟨(List.prefix_append_right_inj _).mpr hlast,
            (List.prefix_append_right_inj _).mpr hall⟩
      · rintro ⟨⟨rest,rfl⟩,hall⟩
        rw [throughLastName,List.append_assoc] at hall ⊢
        refine .next name type ((ih (by simp)).mpr ⟨List.prefix_append _ _,?_⟩)
        exact (List.prefix_append_right_inj _).mp hall

theorem shows_take_iff (hrows : rows ≠ []) (n : ℕ) :
    Shows rows ((listing rows).take n) ↔ (throughLastName rows).length ≤ n := by
  obtain ⟨_,hsplit⟩ := listing_split hrows
  have hprefix : throughLastName rows <+: listing rows := by
    rw [hsplit]
    exact List.prefix_append _ _
  rw [shows_iff hrows]
  constructor
  · rintro ⟨h,-⟩
    have hle := h.length_le
    rw [List.length_take] at hle
    omega
  · intro hle
    refine ⟨?_,List.take_prefix _ _⟩
    rw [List.prefix_iff_eq_take.mp hprefix]
    exact List.take_prefix_take_left hle

end Texts

/-- The children of a directory as `dao_list_dir` reads them. -/
def Db.children (db : Db) (userId : ℤ) (dirId : ℕ) : List (Text × ℕ) :=
  (db.paths.filter fun r => r.userId = userId ∧ r.parentId = dirId).map fun r => (r.fileName,r.type)

section Replies

variable {ι : Type} [DecidableEq ι] {lib : Library} {i : ι} {w : World ι}

def Faultless (_ : Op) (_ : World ι) (c : Choice) : Prop := c ≠ .fault

/-- One more packet has been sent, and it shows the children, if there are any. -/
def Listed (i : ι) (rows : List (Text × ℕ)) (w w' : World ι) : Prop :=
  ∃ text, (w'.node.conn i).sent = (w.node.conn i).sent ++ [.command .reply text] ∧
    (rows = [] ∨ Shows rows text)

/-- A program that ends, and ends as `Q` says. -/
def EndsAs {α : Type} (lib : Library) (i : ι) (p : Server α) (Q : World ι → Prop) (w : World ι) : Prop :=
  (server ι lib).can Faultless i p (fun _ _ => True) w ∧
    (server ι lib).wlp Faultless i p (fun _ => Q) w

theorem endsAs_sql {α : Type} {t : Statement} {k : t.Res → Server α} {Q : World ι → Prop} :
    EndsAs lib i (sql t >>= k) Q w ↔
      EndsAs lib i (k (t.exec w.db).1) Q { w with db := (t.exec w.db).2 } := by
  constructor
  · rintro ⟨⟨c,r,w',hc,hx,hcan⟩,hall⟩
    rcases execute_sql hx with ⟨rfl,db,he,rfl⟩ | ⟨rfl,-⟩
    · have h := hall .ok r _ hc hx
      rw [he]
      exact ⟨hcan,h⟩
    · exact absurd rfl hc
  · rintro ⟨hcan,hall⟩
    refine ⟨⟨.ok,_,_,by simp [Faultless],rfl,hcan⟩,fun c r w' hc hx => ?_⟩
    rcases execute_sql hx with ⟨rfl,db,he,rfl⟩ | ⟨rfl,-⟩
    · rw [he] at hall
      exact hall
    · exact absurd rfl hc

theorem endsAs_sendMsg {msg : Text} {Q : World ι → Prop} :
    EndsAs lib i (sendMsg msg) Q w ↔
      Q (w.setNode (w.node.deliver i (initCommandPacket .reply msg))) := by
  constructor
  · rintro ⟨-,hall⟩
    exact hall .ok true _ (by simp [Faultless]) rfl
  · intro hQ
    refine ⟨⟨.ok,true,_,by simp [Faultless],rfl,trivial⟩,fun c r w' hc hx => ?_⟩
    rcases execute_send hx with ⟨rfl,rfl,rfl⟩ | ⟨rfl,-⟩
    · exact hQ
    · exact absurd rfl hc

theorem endsAs_overflow {α β : Type} {f : α → Server β} {Q : World ι → Prop} :
    ¬ EndsAs lib i (overflow >>= f) Q w := by
  rintro ⟨⟨_,r,_⟩,_⟩
  exact r.elim

theorem listed_reply {rows : List (Text × ℕ)} (msg : Text) :
    Listed i rows w (w.setNode (w.node.deliver i (initCommandPacket .reply msg))) ↔
      rows = [] ∨ Shows rows (msg.take (cmdDataLen-1)) := by
  have hsent : ((w.setNode (w.node.deliver i (initCommandPacket .reply msg))).node.conn i).sent =
      (w.node.conn i).sent ++ [.command .reply (msg.take (cmdDataLen-1))] := by
    simp [World.setNode,Node.deliver,Node.setConn,initCommandPacket]
  constructor
  · rintro ⟨text,htext,h⟩
    obtain rfl : msg.take (cmdDataLen-1) = text := by simpa using hsent.symm.trans htext
    exact h
  · exact fun h => ⟨_,hsent,h⟩

theorem listing_nil {rows : List (Text × ℕ)} : listing rows = [] ↔ rows = [] := by
  constructor
  · intro h
    cases rows with
    | nil => rfl
    | cons e rows =>
      rw [listing,List.flatMap_cons,listEntry_eq] at h
      have hbehind := (List.append_eq_nil_iff.mp (List.append_eq_nil_iff.mp h).1).2
      unfold behindName at hbehind
      split at hbehind <;> simp at hbehind
  · rintro rfl
    rfl

theorem listing_room (rows : List (Text × ℕ)) :
    (listing rows).length ≤ (throughLastName rows).length+5 := by
  by_cases hrows : rows = []
  · subst hrows
    exact Nat.zero_le _
  · obtain ⟨type,hsplit⟩ := listing_split hrows
    have hbehind : (behindName type).length ≤ 5 := by
      unfold behindName
      split <;> decide
    rw [hsplit,List.length_append]
    omega

end Replies

/-- The reply to `ls` shows every child, once and whole, exactly where the listing
up to the last name fits into a packet. -/
theorem listing_complete_iff {ι : Type} [DecidableEq ι] (lib : Library) (i : ι) (ctx : ClientContext)
    (w : World ι) :
    EndsAs lib i (handleLs ctx) (Listed i (w.db.children ctx.userId ctx.currentDirId) w) w ↔
      (throughLastName (w.db.children ctx.userId ctx.currentDirId)).length ≤ cmdDataLen-1 := by
  have hroom := listing_room (w.db.children ctx.userId ctx.currentDirId)
  unfold handleLs daoListDir
  rw [bind_assoc,endsAs_sql]
  change EndsAs lib i ((if (listing (w.db.children ctx.userId ctx.currentDirId)).length < 4096 then
    pure (some (listing (w.db.children ctx.userId ctx.currentDirId))) else overflow) >>= _) _ w ↔ _
  generalize w.db.children ctx.userId ctx.currentDirId = rows at hroom ⊢
  split
  · change EndsAs lib i (if listing rows = [] then _ else _) _ w ↔ _
    split
    · rename_i hnil
      obtain rfl := listing_nil.mp hnil
      rw [endsAs_sendMsg,listed_reply]
      simp [throughLastName]
    · rename_i hne
      have hrows : rows ≠ [] := fun h => hne (listing_nil.mpr h)
      rw [endsAs_sendMsg,listed_reply,shows_take_iff hrows,or_iff_right hrows]
  · rename_i hlong
    refine iff_of_false (endsAs_overflow) ?_
    unfold cmdDataLen
    omega

/-- Nine files in the root directory, with names of thirty bytes. -/
def crowded : World Unit where
  db := { Db.empty with
    paths := (List.range 9).map fun k =>
      let name := Char.ofNat (48+k)::List.replicate 29 'a'
      ⟨k+1,3,'/'::name,some 1,0,name,0⟩ }
  minted := []
  drawn := []
  node :=
    { storeDir := "../test/server_files".toList
      address := ("127.0.0.1".toList,"9090".toList)
      store := .empty []
      desc := fun _ => none
      conn := fun _ => ⟨[],⟨.invalid,0,0,[],[]⟩,fun _ => [],[],[]⟩
      tickets := .zero
      unlinked := [] }

/-- The last of nine long names is cut. -/
theorem crowded_listing_cut : ¬ ∀ (lib : Library) (ctx : ClientContext) (w : World Unit),
    (∀ r ∈ w.db.paths, 1 ≤ r.fileName.length ∧ r.fileName.length ≤ maxVfsNameLen) →
    EndsAs lib () (handleLs ctx) (Listed () (w.db.children ctx.userId ctx.currentDirId) w) w := by
  intro h
  have hends := h ⟨fun _ => [],fun _ => none,fun _ _ _ _ _ => none⟩ ⟨3,"/".toList,0⟩ crowded
    (by decide +kernel)
  have hfits := (listing_complete_iff _ () ⟨3,"/".toList,0⟩ crowded).mp hends
  exact absurd hfits (by decide +kernel)

end WindCloud
