import WindCloud.Lib.Sockets
import WindCloud.Server.Download

/-!
# The ways of sending a file

The sending loops of the server and of the client by single calls of
`sendfile`, `send` and `read`, whose results are given in advance. Of the four
loops only the one around `sendfile` makes an interrupted call again.
-/

set_option autoImplicit false

namespace WindCloud
open Socket

namespace Calls

def bufferSize : ℕ := 4096

/-- The loop of `send_full`, `total` of `buf` having been sent. -/
def sendFull (buf : Content) : List SysResult → (total : ℕ) → (out : Content) →
    Option ℤ × Outgoing Char
  | [], total, out => (if total < buf.length then none else some 0,⟨[],out⟩)
  | r::rs, total, out =>
    if total < buf.length then
      match r with
      | .count n =>
        if n = 0 then (some (-1),⟨rs,out⟩)
        else if total+n ≤ buf.length then
          sendFull buf rs (total+n) (out ++ (buf.drop total).take n)
        else (none,⟨r::rs,out⟩)
      | _ => (some (-1),⟨rs,out⟩)
    else (some 0,⟨r::rs,out⟩)

/-- The loop of `send_file_by_sendfile`. -/
def sendfileLoop (content : Content) : List SysResult → (currentOffset remaining : ℕ) →
    (out : Content) → Option ℤ × Outgoing Char
  | [], _, remaining, out => (if 0 < remaining then none else some 0,⟨[],out⟩)
  | r::rs, currentOffset, remaining, out =>
    if 0 < remaining then
      match r with
      | .eintr => sendfileLoop content rs currentOffset remaining out
      | .error => (some (-1),⟨rs,out⟩)
      | .count n =>
        if n = 0 then (some (-1),⟨rs,out⟩)
        else if n ≤ remaining then
          sendfileLoop content rs (currentOffset+n) (remaining-n)
            (out ++ (content.drop currentOffset).take n)
        else (none,⟨r::rs,out⟩)
    else (some 0,⟨r::rs,out⟩)

def sendFileBySendfile (content : Content) (offset fileSize : ℕ) (rs : List SysResult) :
    Option ℤ × Outgoing Char :=
  sendfileLoop content rs offset (fileSize-offset) []

/-- The loop over the mapped file, `sentCount` of `remaining` having been sent;
`broken` is returned when `send_full` fails. -/
def mappedLoop (broken : ℤ) (mapped : Content) (remaining : ℕ) : (passes sentCount : ℕ) →
    Outgoing Char → Option ℤ × Outgoing Char
  | 0, _, w => (some 0,w)
  | passes+1, sentCount, w =>
    if sentCount < remaining then
      let once := min (remaining-sentCount) bufferSize
      let e := sendFull ((mapped.drop sentCount).take once) w.results 0 w.delivered
      if e.1 = some 0 then mappedLoop broken mapped remaining passes (sentCount+once) e.2
      else (e.1.map fun _ => broken,e.2)
    else (some 0,w)

/-- A pass of the loop sends at least one byte. -/
def sendMapped (broken : ℤ) (content : Content) (offset fileSize : ℕ) (rs : List SysResult) :
    Option ℤ × Outgoing Char :=
  if fileSize-offset = 0 then (some 0,⟨rs,[]⟩)
  else mappedLoop broken (content.drop offset) (fileSize-offset) (fileSize-offset) 0 ⟨rs,[]⟩

/-- `send_file_by_mmap` of the server. -/
def sendFileByMmap (content : Content) (offset fileSize : ℕ) (rs : List SysResult) :
    Option ℤ × Outgoing Char := sendMapped (-1) content offset fileSize rs

/-- `send_file_by_mmap` of the client. -/
def putsFileByMmap (content : Content) (offset fileSize : ℕ) (rs : List SysResult) :
    Option ℤ × Outgoing Char := sendMapped 1 content offset fileSize rs

/-- The loop of `send_file_by_read_loop`, the file being read from `pos` on. -/
def readLoop (content : Content) : (reads : List SysResult) → (pos remaining : ℕ) →
    Outgoing Char → Option ℤ × Outgoing Char
  | [], _, remaining, w => (if 0 < remaining then none else some 0,w)
  | r::reads, pos, remaining, w =>
    if 0 < remaining then
      match r with
      | .count nread =>
        if nread = 0 then (some (-1),w)
        else if nread ≤ min remaining bufferSize then
          let e := sendFull ((content.drop pos).take nread) w.results 0 w.delivered
          if e.1 = some 0 then readLoop content reads (pos+nread) (remaining-nread) e.2
          else (e.1.map fun _ => 1,e.2)
        else (none,w)
      | _ => (some (-1),w)
    else (some 0,w)

def sendFileByReadLoop (content : Content) (offset fileSize : ℕ) (reads rs : List SysResult) :
    Option ℤ × Outgoing Char :=
  readLoop content reads offset (fileSize-offset) ⟨rs,[]⟩

section Full

variable {excuse : Prop} {buf out : Content} {rs : List SysResult} {total : ℕ}

theorem sendFull_conveys (rs : List SysResult) (total : ℕ) (out : Content) :
    Conveys SysResult.moves excuse (buf.drop total) rs out (sendFull buf rs total out) := by
  induction rs generalizing total out with
  | nil =>
    unfold sendFull
    split
    · exact conveys_wait fun h => by have := List.drop_eq_nil_iff.mp h; omega
    · exact conveys_end (List.drop_eq_nil_iff.mpr (by omega))
  | cons r rs ih =>
    unfold sendFull
    split
    · rename_i hlt
      have hne : buf.drop total ≠ [] := fun h => by have := List.drop_eq_nil_iff.mp h; omega
      cases r with
      | count n =>
        dsimp only
        split
        · rename_i hn
          subst hn
          exact conveys_break hne rfl (by decide) (by decide)
        · split
          · rename_i hn hle
            refine conveys_step ?_ ?_ ?_
            · simp only [SysResult.size,List.length_drop]
              omega
            · exact Nat.pos_of_ne_zero hn
            · have h := ih (total+n) (out ++ (buf.drop total).take n)
              rw [← List.drop_drop] at h
              exact h
          · exact conveys_wait hne
      | eintr => exact conveys_break hne rfl (by decide) (by decide)
      | error => exact conveys_break hne rfl (by decide) (by decide)
    · exact conveys_end (List.drop_eq_nil_iff.mpr (by omega))

end Full

section Loops

variable {excuse : Prop} {content data out : Content} {offset fileSize : ℕ}

theorem take_ne_nil {n : ℕ} (hn : 0 < n) (hle : n ≤ data.length) : data.take n ≠ [] := by
  intro h
  have := congrArg List.length h
  rw [List.length_take,List.length_nil] at this
  omega

theorem sendfileLoop_conveys (rs : List SysResult) (cur : ℕ) (out : Content)
    (h : content.drop cur = data) (remaining : ℕ) (hle : remaining ≤ data.length) :
    Conveys SysResult.goesOn excuse (data.take remaining) rs out
      (sendfileLoop content rs cur remaining out) := by
  induction rs generalizing cur data remaining out with
  | nil =>
    unfold sendfileLoop
    split
    · rename_i hlt
      exact conveys_wait (take_ne_nil hlt hle)
    · obtain rfl : remaining = 0 := by omega
      exact conveys_end (List.take_zero)
  | cons r rs ih =>
    unfold sendfileLoop
    split
    · rename_i hlt
      have hne := take_ne_nil hlt hle
      cases r with
      | eintr =>
        refine conveys_step (Nat.zero_le _) (.inr rfl) ?_
        simpa [SysResult.size] using ih cur out h remaining hle
      | error => exact conveys_break hne rfl (by decide) (by decide)
      | count n =>
        dsimp only
        split
        · rename_i hn
          subst hn
          exact conveys_break hne rfl (by decide) (by decide)
        · split
          · rename_i hn hfit
            refine conveys_step ?_ ?_ ?_
            · simp only [SysResult.size,List.length_take]
              omega
            · exact .inl (Nat.pos_of_ne_zero hn)
            · have hdrop : content.drop (cur+n) = data.drop n := by rw [← h,List.drop_drop]
              have hnext := ih (cur+n) (out ++ data.take n) hdrop (remaining-n)
                (by rw [List.length_drop]; omega)
              simp only [SysResult.size]
              rw [List.drop_take,List.take_take,Nat.min_eq_left hfit,h]
              exact hnext
          · exact conveys_wait hne
    · obtain rfl : remaining = 0 := by omega
      exact conveys_end (List.take_zero)

theorem block_append (data : Content) {once remaining : ℕ} (h : once ≤ remaining) :
    data.take remaining = data.take once ++ (data.drop once).take (remaining-once) := by
  conv_lhs => rw [← Nat.add_sub_cancel' h,List.take_add]

theorem mappedLoop_conveys {broken : ℤ} (hbroken : broken ≠ 0) (mapped : Content)
    {remaining : ℕ} (passes sentCount : ℕ) (w : Outgoing Char) (hp : remaining ≤ passes+sentCount) :
    Conveys SysResult.moves excuse ((mapped.drop sentCount).take (remaining-sentCount)) w.results
      w.delivered (mappedLoop broken mapped remaining passes sentCount w) := by
  induction passes generalizing sentCount w with
  | zero =>
    rw [show remaining-sentCount = 0 by omega]
    exact conveys_end List.take_zero
  | succ passes ih =>
    unfold mappedLoop
    split
    · rename_i hlt
      have honce : 0 < min (remaining-sentCount) bufferSize := by
        unfold bufferSize
        omega
      generalize hk : min (remaining-sentCount) bufferSize = once at honce
      rw [block_append (mapped.drop sentCount) (show once ≤ remaining-sentCount by omega)]
      refine conveys_block hbroken (sendFull_conveys _ 0 _) fun _ => ?_
      have hnext := ih (sentCount+once) (sendFull ((mapped.drop sentCount).take once) w.results 0
        w.delivered).2 (by omega)
      rwa [← List.drop_drop,Nat.sub_add_eq] at hnext
    · rw [show remaining-sentCount = 0 by omega]
      exact conveys_end List.take_zero

theorem readLoop_conveys (reads : List SysResult) (hx : ∀ r ∈ reads, ¬r.moves → excuse)
    (pos remaining : ℕ) (w : Outgoing Char) (hle : remaining ≤ (content.drop pos).length) :
    Conveys SysResult.moves excuse ((content.drop pos).take remaining) w.results w.delivered
      (readLoop content reads pos remaining w) := by
  induction reads generalizing pos remaining w with
  | nil =>
    unfold readLoop
    split
    · rename_i hlt
      exact conveys_wait (take_ne_nil hlt hle)
    · obtain rfl : remaining = 0 := by omega
      exact conveys_end List.take_zero
  | cons r reads ih =>
    unfold readLoop
    split
    · rename_i hlt
      have hne := take_ne_nil hlt hle
      have hfailed : ¬r.moves → Conveys SysResult.moves excuse ((content.drop pos).take remaining)
          w.results w.delivered (some (-1),w) := fun hr =>
        conveys_excused hne (hx r (by simp) hr) (by decide)
      cases r with
      | eintr => exact hfailed (by decide)
      | error => exact hfailed (by decide)
      | count nread =>
        dsimp only
        split
        · rename_i hn
          subst hn
          exact hfailed (by decide)
        · split
          · rename_i hn hfit
            have hnread : nread ≤ remaining := by omega
            rw [block_append (content.drop pos) hnread]
            refine conveys_block (by decide) (sendFull_conveys _ 0 _) fun _ => ?_
            have hnext := ih (fun q hq => hx q (by simp [hq])) (pos+nread) (remaining-nread)
              (sendFull ((content.drop pos).take nread) w.results 0 w.delivered).2
              (by rw [List.length_drop] at hle ⊢; omega)
            rwa [← List.drop_drop] at hnext
          · exact conveys_wait hne
    · obtain rfl : remaining = 0 := by omega
      exact conveys_end List.take_zero

/-- The bytes a sender is to deliver. -/
def demanded (content : Content) (offset fileSize : ℕ) : Content :=
  (content.drop offset).take (fileSize-offset)

theorem sendfile_conveys (hend : fileSize ≤ content.length) (rs : List SysResult) :
    Conveys SysResult.goesOn False (demanded content offset fileSize) rs []
      (sendFileBySendfile content offset fileSize rs) :=
  sendfileLoop_conveys rs offset [] rfl _ (by rw [List.length_drop]; omega)

theorem mmap_conveys {broken : ℤ} (hbroken : broken ≠ 0) (content : Content)
    (offset fileSize : ℕ) (rs : List SysResult) :
    Conveys SysResult.moves False (demanded content offset fileSize) rs []
      (sendMapped broken content offset fileSize rs) := by
  unfold sendMapped
  split
  · rename_i hz
    rw [demanded,hz]
    exact conveys_end List.take_zero
  · have hloop : Conveys SysResult.moves False (demanded content offset fileSize) rs [] _ :=
      mappedLoop_conveys hbroken (content.drop offset) (fileSize-offset) 0 ⟨rs,[]⟩
        (Nat.le_refl (fileSize-offset))
    exact hloop

theorem read_conveys (hend : fileSize ≤ content.length) (reads rs : List SysResult) :
    Conveys SysResult.moves (∃ r ∈ reads, ¬r.moves) (demanded content offset fileSize) rs []
      (sendFileByReadLoop content offset fileSize reads rs) :=
  readLoop_conveys reads (fun r hr hm => ⟨r,hr,hm⟩) offset _ ⟨rs,[]⟩
    (by rw [List.length_drop]; omega)

end Loops

/-- The sender has returned, and no result is left over. -/
def Returned (e : Option ℤ × Outgoing Char) : Prop := e.1 ≠ none ∧ e.2.results = []

/-- What is asked of two senders of the same data whose calls have the results `σ`
and `τ`. -/
structure Agree (data : Content) (σ τ : List SysResult) (e₁ e₂ : Option ℤ × Outgoing Char) : Prop where
  beginnings : e₁.2.delivered <+: data ∧ e₂.2.delivered <+: data
  returns : (e₁.1 = some 0 ↔ e₁.2.delivered = data) ∧ (e₂.1 = some 0 ↔ e₂.2.delivered = data)
  same : .error ∉ σ → .error ∉ τ → e₁.2.delivered = e₂.2.delivered

section Agreement

variable {good₁ good₂ : SysResult → Prop} {excuse₁ excuse₂ : Prop} {data : Content}
  {σ τ reads : List SysResult} {e₁ e₂ : Option ℤ × Outgoing Char}

theorem returned_some {e : Option ℤ × Outgoing Char} (h : Returned e) :
    ∃ ret, e = (some ret,⟨[],e.2.delivered⟩) := by
  obtain ⟨ret,w,out⟩ := e
  obtain ⟨ret,rfl⟩ := Option.ne_none_iff_exists'.mp h.1
  obtain rfl : w = [] := h.2
  exact ⟨ret,rfl⟩

/-- Senders that meet good results only do what is asked of them. -/
theorem agree_good {σ' : List SysResult} (h₁ : Conveys good₁ excuse₁ data σ [] e₁)
    (h₂ : Conveys good₂ False data τ [] e₂) (hr₁ : Returned e₁) (hr₂ : Returned e₂)
    (hgood : .error ∉ σ' → .error ∉ τ → ((∀ r ∈ σ, good₁ r) ∧ ¬excuse₁) ∧ ∀ r ∈ τ, good₂ r) :
    Agree data σ' τ e₁ e₂ := by
  refine ⟨⟨conveys_beginning h₁,conveys_beginning h₂⟩,⟨conveys_whole h₁,conveys_whole h₂⟩,?_⟩
  intro hσ hτ
  obtain ⟨⟨hg₁,hx₁⟩,hg₂⟩ := hgood hσ hτ
  obtain ⟨_,he₁⟩ := returned_some hr₁
  obtain ⟨_,he₂⟩ := returned_some hr₂
  rw [he₁] at h₁
  rw [he₂] at h₂
  exact (conveys_good h₁ hg₁ hx₁).trans (conveys_good h₂ hg₂ id).symm

/-- Where one of two senders that deliver the same meets good results only, so does
the other one. -/
theorem same_good (h₁ : Conveys good₁ excuse₁ data σ [] e₁) (h₂ : Conveys good₂ excuse₂ data τ [] e₂)
    (hr₁ : Returned e₁) (hr₂ : Returned e₂) (hsame : e₁.2.delivered = e₂.2.delivered)
    (hg : ∀ r ∈ σ, good₁ r) (hx : ¬excuse₁) : ∀ r ∈ τ, good₂ r := by
  obtain ⟨_,he₁⟩ := returned_some hr₁
  rw [he₁] at h₁
  have hall := conveys_good h₁ hg hx
  exact conveys_sound h₂ hr₂.2 (hsame.symm.trans hall)

end Agreement

end Calls

open Calls

/-- The senders of the server, and those of the client, do what is asked of them
where no call takes nothing and none of `send` and `read` is interrupted. Where they
do it without errors, a bad result of one of them comes with one of the other. -/
theorem send_paths_agree (content : Content) (offset fileSize : ℕ)
    (hend : fileSize ≤ content.length) :
    (∀ σ τ, Returned (Calls.sendFileBySendfile content offset fileSize σ) →
      Returned (Calls.sendFileByMmap content offset fileSize τ) →
        ((.error ∉ σ → .error ∉ τ → (∀ r ∈ σ, r.goesOn) ∧ ∀ r ∈ τ, r.moves) →
          Agree (demanded content offset fileSize) σ τ
            (Calls.sendFileBySendfile content offset fileSize σ)
            (Calls.sendFileByMmap content offset fileSize τ)) ∧
        (Agree (demanded content offset fileSize) σ τ
            (Calls.sendFileBySendfile content offset fileSize σ)
            (Calls.sendFileByMmap content offset fileSize τ) →
          .error ∉ σ → .error ∉ τ → ((∀ r ∈ σ, r.goesOn) ↔ ∀ r ∈ τ, r.moves))) ∧
      ∀ reads σ τ, Returned (sendFileByReadLoop content offset fileSize reads σ) →
        Returned (putsFileByMmap content offset fileSize τ) →
          ((.error ∉ reads ++ σ → .error ∉ τ → (∀ r ∈ reads ++ σ, r.moves) ∧ ∀ r ∈ τ, r.moves) →
            Agree (demanded content offset fileSize) (reads ++ σ) τ
              (sendFileByReadLoop content offset fileSize reads σ)
              (putsFileByMmap content offset fileSize τ)) ∧
          (Agree (demanded content offset fileSize) (reads ++ σ) τ
              (sendFileByReadLoop content offset fileSize reads σ)
              (putsFileByMmap content offset fileSize τ) →
            .error ∉ reads ++ σ → .error ∉ τ →
              ((∀ r ∈ reads ++ σ, r.moves) → ∀ r ∈ τ, r.moves) ∧
                ((∀ r ∈ τ, r.moves) → ∀ r ∈ σ, r.moves)) := by
  constructor
  · intro σ τ hσ hτ
    have hsendfile : Conveys SysResult.goesOn False (demanded content offset fileSize) σ []
        (Calls.sendFileBySendfile content offset fileSize σ) := sendfile_conveys hend σ
    have hmmap : Conveys SysResult.moves False (demanded content offset fileSize) τ []
        (Calls.sendFileByMmap content offset fileSize τ) :=
      mmap_conveys (by decide : (-1 : ℤ) ≠ 0) content offset fileSize τ
    refine ⟨fun hgood => agree_good hsendfile hmmap hσ hτ fun he he' => ?_,fun h he he' => ?_⟩
    · exact ⟨⟨(hgood he he').1,id⟩,(hgood he he').2⟩
    · have hsame := h.same he he'
      exact ⟨fun hg => same_good hsendfile hmmap hσ hτ hsame hg id,
        fun hg => same_good hmmap hsendfile hτ hσ hsame.symm hg id⟩
  · intro reads σ τ hσ hτ
    have hread : Conveys SysResult.moves (∃ r ∈ reads, ¬r.moves)
        (demanded content offset fileSize) σ [] (sendFileByReadLoop content offset fileSize reads σ) :=
      read_conveys hend reads σ
    have hmmap : Conveys SysResult.moves False (demanded content offset fileSize) τ []
        (putsFileByMmap content offset fileSize τ) :=
      mmap_conveys (by decide : (1 : ℤ) ≠ 0) content offset fileSize τ
    have hreads : (∀ r ∈ reads ++ σ, r.moves) →
        (∀ r ∈ σ, r.moves) ∧ ¬∃ r ∈ reads, ¬r.moves := by
      intro hg
      obtain ⟨hr,hs⟩ := List.forall_mem_append.mp hg
      exact ⟨hs,fun ⟨r,hmem,hbad⟩ => hbad (hr r hmem)⟩
    refine ⟨fun hgood => agree_good hread hmmap hσ hτ fun he he' => ?_,fun h he he' => ?_⟩
    · exact ⟨hreads (hgood he he').1,(hgood he he').2⟩
    · have hsame := h.same he he'
      exact ⟨fun hg => same_good hread hmmap hσ hτ hsame (hreads hg).1 (hreads hg).2,
        fun hg => same_good hmmap hread hτ hσ hsame.symm hg id⟩

/-- `sendfile` is called again after an interruption, `send` is not. -/
theorem interrupted_paths_disagree : ¬ ∀ (content : Content) (offset fileSize : ℕ)
    (σ τ : List SysResult), offset ≤ fileSize → fileSize ≤ content.length →
    Returned (Calls.sendFileBySendfile content offset fileSize σ) →
    Returned (Calls.sendFileByMmap content offset fileSize τ) →
    Agree (demanded content offset fileSize) σ τ (Calls.sendFileBySendfile content offset fileSize σ)
      (Calls.sendFileByMmap content offset fileSize τ) := by
  intro h
  have hagree := h "abc".toList 0 3 [.eintr,.count 3] [.eintr] (by decide) (by decide)
    ⟨by decide,by decide⟩ ⟨by decide,by decide⟩
  exact absurd (hagree.same (by decide) (by decide)) (by decide)

/-- Both ways of the server with partial sends, and both of the client. -/
theorem short_sends_agree :
    Agree "abc".toList [.count 1,.eintr,.count 2] [.count 2,.count 1]
        (Calls.sendFileBySendfile "abc".toList 0 3 [.count 1,.eintr,.count 2])
        (Calls.sendFileByMmap "abc".toList 0 3 [.count 2,.count 1]) ∧
      Agree "bc".toList [.count 1,.count 1,.count 1,.count 1] [.count 2]
        (sendFileByReadLoop "abc".toList 1 3 [.count 1,.count 1] [.count 1,.count 1])
        (putsFileByMmap "abc".toList 1 3 [.count 2]) := by
  constructor
  · exact ((send_paths_agree "abc".toList 0 3 (by decide)).1 _ _ ⟨by decide,by decide⟩
      ⟨by decide,by decide⟩).1 fun _ _ => by decide
  · exact ((send_paths_agree "abc".toList 1 3 (by decide)).2 [.count 1,.count 1] _ _
      ⟨by decide,by decide⟩ ⟨by decide,by decide⟩).1 fun _ _ => by decide

end WindCloud
