import WindCloud.Server.Download

/-!
# The sending loops

Both ways of sending a part of a file, over any machine that runs them: what is
true at a position and carried on by each sending operation is true at the end,
unless one of them fails. No sum or difference leaves `off_t`.
-/

set_option autoImplicit false

namespace WindCloud
open CString Effect

variable {ι σ C : Type}

theorem off_pure {n : ℤ} (h : offMin ≤ n) (h' : n ≤ offMax) : off n = pure n := if_pos ⟨h,h'⟩

theorem once_bounds {remaining : ℤ} {count : ℕ} (h : count < remaining) :
    0 < once remaining count ∧ count+once remaining count ≤ remaining := by
  unfold once bufferSize
  split <;> omega

theorem resumeOffset_bounds (offset size : ℤ) (h : 0 ≤ size) :
    0 ≤ resumeOffset offset size ∧ resumeOffset offset size ≤ size := by
  unfold resumeOffset
  split <;> omega

/-- Sending operations take the state at one position to that at a later one,
up to `stop`, or break the transfer. -/
structure Sends (m : Machine Op Op.Res ι σ C) (ok : Op → σ → C → Prop) (i : ι) (G : Op → σ → Prop)
    (At : ℤ → σ → Prop) (Broken : σ → Prop) (stop : ℤ) : Prop where
  start : ∀ o cur s, o ≠ .overflow → cur ≤ stop → At cur s → G o s
  sendfile : ∀ cur count s c r s', 0 < count → cur+count ≤ stop → At cur s →
    ok (.sendfile cur count) s c → m.exec (.sendfile cur count) i s c = some (r,s') →
    (r = [] ∧ Broken s') ∨ ((r : Content) ≠ [] ∧ ((r : Content).length : ℤ) ≤ count ∧
      At (cur+(r : Content).length) s')
  sendMapped : ∀ cur count s c r s', 0 < count → cur+count ≤ stop → At cur s →
    ok (.sendMapped cur count) s c → m.exec (.sendMapped cur count) i s c = some (r,s') →
    (r = [] ∧ Broken s') ∨ ((r : Content) ≠ [] ∧ ((r : Content).length : ℤ) ≤ count ∧
      At (cur+(r : Content).length) s')
  mmap : ∀ size cur s c r s', 0 < size → cur ≤ stop → At cur s → ok (.mmap size) s c →
    m.exec (.mmap size) i s c = some (r,s') → (r = true → At cur s') ∧ (r = false → Broken s')

/-- How a loop ends: at the end of the part, or broken off. -/
def Ends (At : ℤ → σ → Prop) (Broken : σ → Prop) (stop : ℤ) (b : Bool) (s : σ) : Prop :=
  (b = true → At stop s) ∧ (b = false → Broken s)

variable {m : Machine Op Op.Res ι σ C} {ok : Op → σ → C → Prop} {i : ι} {G : Op → σ → Prop}
  {At : ℤ → σ → Prop} {Broken : σ → Prop} {stop cur : ℤ} {s : σ}

theorem ends_at (h : At stop s) : Ends At Broken stop true s := ⟨fun _ => h,nofun⟩

theorem ends_broken (h : Broken s) : Ends At Broken stop false s := ⟨nofun,fun _ => h⟩

theorem sendfileLoop_sends (hm : Sends m ok i G At Broken stop) (hstop : stop ≤ offMax)
    (passes : ℕ) {rem : ℤ} (h0 : 0 ≤ cur) (hrem : 0 ≤ rem) (hcur : cur+rem = stop)
    (hpasses : rem ≤ passes) (hs : At cur s) :
    m.guarded ok i G (sendfileLoop passes cur rem) (Ends At Broken stop) s := by
  induction passes generalizing cur rem s with
  | zero =>
    obtain rfl : cur = stop := by omega
    exact ends_at hs
  | succ passes ih =>
    unfold sendfileLoop
    split
    · refine ⟨hm.start _ _ _ (by simp) (by omega) hs,fun c r s' hok hx => ?_⟩
      rcases hm.sendfile _ _ _ c r s' (by omega) (by omega) hs hok hx with ⟨rfl,hb⟩ | ⟨hne,hle,hs'⟩
      · exact ends_broken hb
      · have hlen := List.length_pos_of_ne_nil hne
        have hmax : offMin ≤ rem-(r : Content).length ∧ rem-(r : Content).length ≤ offMax := by
          unfold offMin offMax at *
          omega
        simp only [Program.bind,if_neg hne]
        rw [off_pure hmax.1 hmax.2]
        exact ih (by omega) (by omega) (by omega) (by omega) hs'
    · obtain rfl : cur = stop := by omega
      exact ends_at hs

theorem sendFileBySendfile_sends (hm : Sends m ok i G At Broken stop) (hstop : stop ≤ offMax)
    (h0 : 0 ≤ cur) (hcur : cur ≤ stop) (hs : At cur s) :
    m.guarded ok i G (sendFileBySendfile cur stop) (Ends At Broken stop) s := by
  have hmax : offMin ≤ stop-cur ∧ stop-cur ≤ offMax := by
    unfold offMin offMax at *
    omega
  unfold sendFileBySendfile
  rw [off_pure hmax.1 hmax.2]
  exact sendfileLoop_sends hm hstop _ h0 (by omega) (by omega) (by omega) hs

theorem sendFull_sends (hm : Sends m ok i G At Broken stop) (passes : ℕ) {pos len : ℤ}
    {total : ℕ} (hlast : pos+len ≤ stop) (htotal : total ≤ len) (hpasses : len-total ≤ passes)
    (hs : At (pos+total) s) :
    m.guarded ok i G (sendFull pos len passes total) (Ends At Broken (pos+len)) s := by
  induction passes generalizing total s with
  | zero =>
    obtain rfl : len = total := by omega
    exact ends_at hs
  | succ passes ih =>
    unfold sendFull
    split
    · refine ⟨hm.start _ _ _ (by simp) (by omega) hs,fun c r s' hok hx => ?_⟩
      rcases hm.sendMapped _ _ _ c r s' (by omega) (by omega) hs hok hx with ⟨rfl,hb⟩ | ⟨hne,hle,hs'⟩
      · exact ends_broken hb
      · have hlen := List.length_pos_of_ne_nil hne
        simp only [Program.bind,if_neg hne]
        have he : pos+total+(r : Content).length = pos+(total+(r : Content).length : ℕ) := by omega
        rw [he] at hs'
        exact ih (by omega) (by omega) hs'
    · obtain rfl : len = total := by omega
      exact ends_at hs

theorem sendMappedLoop_sends (hm : Sends m ok i G At Broken stop) (hstop : stop ≤ offMax)
    (passes : ℕ) {offset rem : ℤ} {count : ℕ} (h0 : 0 ≤ offset) (hoff : offset+rem = stop)
    (hcount : count ≤ rem) (hpasses : rem-count ≤ passes) (hs : At (offset+count) s) :
    m.guarded ok i G (sendMappedLoop offset rem passes count) (Ends At Broken stop) s := by
  induction passes generalizing count s with
  | zero =>
    obtain rfl : offset+count = stop := by omega
    exact ends_at hs
  | succ passes ih =>
    unfold sendMappedLoop
    split
    · rename_i hlt
      obtain ⟨h1,h2⟩ := once_bounds hlt
      have hmax : offMin ≤ rem-count ∧ rem-count ≤ offMax := by
        unfold offMin offMax at *
        omega
      rw [off_pure hmax.1 hmax.2]
      simp only [Program.pure_eq,Program.ret_bind]
      have hblock : m.guarded ok i G
          (sendFull (offset+count) (once rem count) (once rem count).toNat 0)
          (Ends At Broken (offset+count+once rem count)) s :=
        sendFull_sends hm _ (by omega) (by omega) (by omega) (by simpa using hs)
      refine Machine.guarded_bind _ (Machine.guarded_mono _ ?_ hblock)
      rintro (_ | _) s' ⟨hdone,hbroken⟩
      · exact ends_broken (hbroken rfl)
      · have hs' := hdone rfl
        have he : offset+count+once rem count = offset+(count+(once rem count).toNat : ℕ) := by
          omega
        rw [he] at hs'
        exact ih (by omega) (by omega) hs'
    · obtain rfl : offset+count = stop := by omega
      exact ends_at hs

theorem sendFileByMmap_sends (hm : Sends m ok i G At Broken stop) (hstop : stop ≤ offMax)
    (h0 : 0 ≤ cur) (hcur : cur ≤ stop) (hs : At cur s) :
    m.guarded ok i G (sendFileByMmap cur stop) (Ends At Broken stop) s := by
  have hmax : offMin ≤ stop-cur ∧ stop-cur ≤ offMax := by
    unfold offMin offMax at *
    omega
  unfold sendFileByMmap
  rw [off_pure hmax.1 hmax.2]
  simp only [Program.pure_eq,Program.ret_bind]
  split
  · obtain rfl : cur = stop := by omega
    exact ends_at hs
  · refine ⟨hm.start _ _ _ (by simp) (by omega) hs,fun c r s' hok hx => ?_⟩
    obtain ⟨hyes,hno⟩ := hm.mmap _ _ _ c r s' (by omega) (by omega) hs hok hx
    cases (r : Bool) with
    | false => exact ends_broken (hno rfl)
    | true =>
      have hs' := hyes rfl
      exact sendMappedLoop_sends hm hstop _ h0 (by omega) (by simp; omega) (by simp)
        (by simpa using hs')

theorem sendFrom_sends (hm : Sends m ok i G At Broken stop) (hstop : stop ≤ offMax) (size : ℤ)
    (h0 : 0 ≤ cur) (hcur : cur ≤ stop) (hs : At cur s) :
    m.guarded ok i G (sendFrom size cur stop) (Ends At Broken stop) s := by
  unfold sendFrom
  split
  · exact sendFileByMmap_sends hm hstop h0 hcur hs
  · exact sendFileBySendfile_sends hm hstop h0 hcur hs

end WindCloud
