import WindCloud.Common.Config
import WindCloud.Lib.Runs
import WindCloud.Server.Auth

/-!
# Threads at one cursor

The main thread takes the data of a login or a registration apart while worker
threads look up the configuration. Each takes a text apart by two calls of
`strtok`, and the second call goes on wherever the last call of any thread has
left the cursor.
-/

set_option autoImplicit false

namespace WindCloud
open CString

/-- Where `handle_login` and `handle_register` stand, which begin with the same
two calls. -/
inductive Credentials where
  | before
  | named (userName : Option Pointer)
  | divided (userName userPasswd : Option Pointer)

def Credentials.step (m : Memory Caller) : Credentials → Option (Memory Caller × Credentials)
  | .before =>
    let e := m.strtok ['/'] (.main,0)
    some (e.2,.named e.1)
  | .named userName =>
    (m.strtokNext ['\r','\n','\t']).map fun e => (e.2,.divided userName e.1)
  | .divided _ _ => none

/-- What the handlers go on with, unless a pointer is `NULL`. -/
def takenApart (m : Memory Caller) : Option Pointer → Option Pointer → Option (Text × Text)
  | some userName, some userPasswd => some (m.read userName,m.read userPasswd)
  | _, _ => none

def Credentials.taken (m : Memory Caller) : Credentials → Option (Option (Text × Text))
  | .divided userName userPasswd => some (takenApart m userName userPasswd)
  | _ => none

theorem Credentials.taken_divided {m : Memory Caller} {l : Credentials}
    {outcome : Option (Text × Text)} (h : l.taken m = some outcome) :
    ∃ userName userPasswd, l = .divided userName userPasswd ∧
      takenApart m userName userPasswd = outcome := by
  cases l with
  | before => cases h
  | named userName => cases h
  | divided userName userPasswd => exact ⟨userName,userPasswd,rfl,Option.some.inj h⟩

/-- The threads, worker `i` being in its execution of `get_target`. -/
structure Threads where
  memory : Memory Caller
  login : Credentials
  lookups : ℕ → Lookup

namespace Threads

/-- Nothing has been called yet; the buffers of the lookups hold anything. -/
def start (file : Text) (m : Memory Caller) : Threads :=
  ⟨m,.before,fun _ => .reading (fgetsLines lineSize file)⟩

/-- One call of a thread, `key i` being what worker `i` looks up. -/
def step (key : ℕ → Text) (s : Threads) : Caller → Option Threads
  | .main => (s.login.step s.memory).map fun r => { s with memory := r.1, login := r.2 }
  | .worker i => ((s.lookups i).step (key i) (.worker i) s.memory).map fun r =>
      { s with memory := r.1, lookups := Function.update s.lookups i r.2 }

/-- A second call finds the cursor in the caller's own buffer. -/
def undisturbed (s : Threads) : Caller → Bool
  | .main =>
    match s.login with
    | .named _ => s.memory.cursor.any (·.1 == .main)
    | _ => true
  | .worker i =>
    match s.lookups i with
    | .keyed _ => s.memory.cursor.any (·.1 == .worker i)
    | _ => true

/-- The login has the name and the password of its own data, and each lookup the
value on a line of its own key. -/
structure OwnTokens (data file : Text) (key : ℕ → Text) (s : Threads) : Prop where
  credentials : ∀ userName userPasswd, s.login = .divided userName userPasswd →
    takenApart s.memory userName userPasswd = splitCredentials data
  values : ∀ i value, s.lookups i = .found value →
    ∃ piece ∈ fgetsLines lineSize file, valueOn (key i) (lineText piece) = some value

end Threads

/-- The first call has found the name, and the cursor stands behind it. -/
def Named (data : Text) (m : Memory Caller) (userName : Option Pointer) : Prop :=
  (strtok ['/'] data = none ∧ userName = none) ∨
    ∃ name rest q, strtok ['/'] data = some (name,rest) ∧ userName = some (.main,q) ∧
      m.read (.main,q) = name ∧ m.Ahead .main q ∧ m.Rests .main rest

/-- What the login is going to obtain if it is left alone. -/
def Credentials.Obtains (data : Text) (m : Memory Caller) : Credentials → Prop
  | .before => m.read (.main,0) = data
  | .named userName => Named data m userName
  | .divided userName userPasswd => takenApart m userName userPasswd = splitCredentials data ∧
      ∀ p, userName = some p ∨ userPasswd = some p → p.1 = .main

section Login

variable {data : Text} {m m' : Memory Caller} {l l' : Credentials}

theorem takenApart_apart (h : m.Apart .main m') {userName userPasswd : Option Pointer}
    (hmain : ∀ p, userName = some p ∨ userPasswd = some p → p.1 = .main) :
    takenApart m' userName userPasswd = takenApart m userName userPasswd := by
  have hread : ∀ p : Pointer, p.1 = .main → m'.read p = m.read p := by
    rintro ⟨o,q⟩ rfl
    exact h.read q
  cases userName with
  | none => rfl
  | some n =>
    cases userPasswd with
    | none => rfl
    | some p => simp only [takenApart,hread n (hmain n (.inl rfl)),hread p (hmain p (.inr rfl))]

theorem Credentials.obtains_apart (h : m.Apart .main m') (hl : l.Obtains data m) :
    l.Obtains data m' := by
  cases l with
  | before =>
    have hread : m.read (.main,0) = data := hl
    exact (h.read 0).trans hread
  | named userName =>
    rcases hl with hnone | ⟨name,rest,q,ht,hq,hname,hahead,hrest⟩
    · exact .inl hnone
    · exact .inr ⟨name,rest,q,ht,hq,(h.read q).trans hname,h.ahead hahead,h.rests hrest⟩
  | divided userName userPasswd =>
    obtain ⟨htaken,hmain⟩ := hl
    exact ⟨(takenApart_apart h hmain).trans htaken,hmain⟩

theorem Credentials.step_apart {o : Caller} (ho : o ≠ .main)
    (hcursor : ∀ userName, l = .named userName → ∃ pos, m.cursor = some (.main,pos))
    (h : l.step m = some (m',l')) : m.Apart o m' := by
  cases l with
  | before =>
    cases h
    exact Memory.strtok_apart ho _ _
  | named userName =>
    obtain ⟨pos,hpos⟩ := hcursor userName rfl
    simp only [step,Memory.strtokNext,hpos,Option.map_some,Option.some.injEq,Prod.mk.injEq] at h
    rw [← h.1]
    exact Memory.strtok_apart ho _ _
  | divided userName userPasswd => cases h

theorem Credentials.step_obtains
    (hcursor : ∀ userName, l = .named userName → ∃ pos, m.cursor = some (.main,pos))
    (hl : l.Obtains data m) (h : l.step m = some (m',l')) : l'.Obtains data m' := by
  cases l with
  | before =>
    have hread : m.read (.main,0) = data := hl
    simp only [step,Option.some.injEq,Prod.mk.injEq] at h
    obtain ⟨rfl,rfl⟩ := h
    subst hread
    cases ht : strtok ['/'] (m.read (.main,0)) with
    | none => exact .inl ⟨ht,(Memory.strtok_none ht).1⟩
    | some token =>
      obtain ⟨q,hptr,hname,hahead,hrest⟩ := Memory.strtok_some ht
      exact .inr ⟨_,_,q,ht,hptr,hname,hahead,hrest⟩
  | named userName =>
    obtain ⟨pos,hpos⟩ := hcursor userName rfl
    simp only [step,Memory.strtokNext,hpos,Option.map_some,Option.some.injEq,Prod.mk.injEq] at h
    obtain ⟨rfl,rfl⟩ := h
    have hown : ∀ p, (m.strtok ['\r','\n','\t'] (.main,pos)).1 = some p → p.1 = .main := by
      intro p hp
      obtain ⟨start,-,rfl⟩ := Option.map_eq_some_iff.mp hp
      rfl
    rcases hl with ⟨ht,rfl⟩ | ⟨name,rest,q,ht,rfl,hname,hahead,hrest⟩
    · constructor
      · rw [splitCredentials,ht]
        rfl
      · exact fun p hp => hown p (by simpa using hp)
    · have hread := hrest pos hpos
      have hkept : (m.strtok ['\r','\n','\t'] (.main,pos)).2.read (.main,q) = name :=
        (Memory.strtok_ahead (hahead pos hpos)).trans hname
      constructor
      · simp only [splitCredentials,ht]
        cases hp : strtok ['\r','\n','\t'] rest with
        | none =>
          rw [(Memory.strtok_none (hread ▸ hp)).1]
          rfl
        | some token =>
          obtain ⟨start,hptr,hpasswd,-,-⟩ := Memory.strtok_some (hread ▸ hp)
          rw [hptr]
          simp only [takenApart,hkept,hpasswd]
      · rintro p (hp | hp)
        · cases hp
          rfl
        · exact hown p hp
  | divided userName userPasswd => cases h

end Login

namespace Threads

variable {data file : Text} {key : ℕ → Text} {s s' : Threads} {o : Caller}

/-- Every thread is on its way to its own tokens. -/
structure Sound (data file : Text) (key : ℕ → Text) (s : Threads) : Prop where
  login : s.login.Obtains data s.memory
  lookups : ∀ i, (s.lookups i).Finds (key i) (.worker i) s.memory
    (getTarget (key i) (fgetsLines lineSize file))

theorem cursor_own {cursor : Option Pointer} (h : cursor.any (·.1 == o) = true) :
    ∃ pos, cursor = some (o,pos) := by
  cases cursor with
  | none => cases h
  | some p =>
    obtain rfl : p.1 = o := by simpa using h
    exact ⟨p.2,rfl⟩

theorem undisturbed_login (h : s.undisturbed .main = true) {userName : Option Pointer}
    (hl : s.login = .named userName) : ∃ pos, s.memory.cursor = some (.main,pos) := by
  rw [undisturbed,hl] at h
  exact cursor_own h

theorem undisturbed_lookup {i : ℕ} (h : s.undisturbed (.worker i) = true) {lines : List Text}
    (hl : s.lookups i = .keyed lines) : ∃ pos, s.memory.cursor = some (.worker i,pos) := by
  rw [undisturbed,hl] at h
  exact cursor_own h

theorem step_sound (hs : s.Sound data file key) (hu : s.undisturbed o = true)
    (h : s.step key o = some s') : s'.Sound data file key := by
  cases o with
  | main =>
    obtain ⟨⟨m',l'⟩,hstep,rfl⟩ := Option.map_eq_some_iff.mp h
    have hcursor : ∀ userName, s.login = .named userName → ∃ pos, s.memory.cursor = some (.main,pos) :=
      fun _ hl => undisturbed_login hu hl
    constructor
    · exact Credentials.step_obtains hcursor hs.login hstep
    · intro i
      have happart : s.memory.Apart (.worker i) m' :=
        Credentials.step_apart (fun hc => by cases hc) hcursor hstep
      exact Lookup.finds_apart happart (hs.lookups i)
  | worker i =>
    obtain ⟨⟨m',l'⟩,hstep,rfl⟩ := Option.map_eq_some_iff.mp h
    have hcursor : ∀ lines, s.lookups i = .keyed lines →
        ∃ pos, s.memory.cursor = some (.worker i,pos) := fun _ hl => undisturbed_lookup hu hl
    constructor
    · exact Credentials.obtains_apart
        (Lookup.step_apart (fun hc => by cases hc) hcursor hstep) hs.login
    · intro j
      by_cases hj : j = i
      · subst hj
        dsimp only
        rw [Function.update_self]
        exact Lookup.step_finds hcursor (hs.lookups j) hstep
      · dsimp only
        rw [Function.update_of_ne hj]
        have happart : s.memory.Apart (.worker j) m' :=
          Lookup.step_apart (fun hc => hj (Caller.worker.inj hc)) hcursor hstep
        exact Lookup.finds_apart happart (hs.lookups j)

theorem sound_tokens (hs : s.Sound data file key) : s.OwnTokens data file key := by
  constructor
  · intro userName userPasswd hl
    have hlogin := hs.login
    rw [hl] at hlogin
    exact hlogin.1
  · intro i value hl
    have hfound := hs.lookups i
    rw [hl] at hfound
    exact getTarget_line hfound

end Threads

/-- As long as each second call finds the cursor where the first call of the same
thread has left it, every thread obtains the tokens of its own text. -/
theorem undisturbed_threads_obtain_own_tokens (file : Text) (key : ℕ → Text) (m : Memory Caller)
    {s : Threads} (run : Runs.Reached (Threads.step key) (fun s o => s.undisturbed o = true)
      (Threads.start file m) s) : s.OwnTokens (m.read (.main,0)) file key := by
  have hstart : (Threads.start file m).Sound (m.read (.main,0)) file key := ⟨rfl,fun _ => rfl⟩
  apply Threads.sound_tokens
  exact Runs.reached_invariant hstart (fun _ _ _ hs hu h => Threads.step_sound hs hu h) run

/-- A packet of the main thread and empty lines. -/
def packetMemory (data : Text) : Memory Caller :=
  ⟨fun | .main => data | .worker _ => [],none⟩

/-- A lookup ahead of a login. -/
theorem lookup_ahead_of_login : ∃ s, Runs.replay (Threads.step fun _ => "ip".toList)
      Threads.undisturbed [.worker 0,.worker 0,.worker 0,.main,.main]
      (Threads.start "ip=127.0.0.1\n".toList (packetMemory "bob/secret".toList)) = some s ∧
    s.OwnTokens "bob/secret".toList "ip=127.0.0.1\n".toList fun _ => "ip".toList := by
  obtain ⟨s,hs⟩ := Option.isSome_iff_exists.mp
    (by decide +kernel : (Runs.replay (Threads.step fun _ => "ip".toList)
      Threads.undisturbed [.worker 0,.worker 0,.worker 0,.main,.main]
      (Threads.start "ip=127.0.0.1\n".toList (packetMemory "bob/secret".toList))).isSome = true)
  exact ⟨s,hs,undisturbed_threads_obtain_own_tokens _ _ (packetMemory "bob/secret".toList)
    (Runs.replay_reached hs)⟩

/-- A login between the two calls of a lookup: the password is returned as the
address of the server, and the login is left without one. -/
theorem login_within_lookup : ¬ ∀ (file : Text) (key : ℕ → Text) (m : Memory Caller) (s : Threads),
    Runs.Reached (Threads.step key) (fun _ _ => True) (Threads.start file m) s →
      s.OwnTokens (m.read (.main,0)) file key := by
  intro h
  have hlost : ((Runs.replay (Threads.step fun _ => "ip".toList) (fun _ _ => true)
      [.worker 0,.worker 0,.main,.worker 0,.main]
      (Threads.start "ip=127.0.0.1\n".toList (packetMemory "bob/secret".toList))).map
        fun s => s.login.taken s.memory) = some (some none) := by
    decide +kernel
  obtain ⟨s,hs,hlogin⟩ := Option.map_eq_some_iff.mp hlost
  have htokens := h "ip=127.0.0.1\n".toList (fun _ => "ip".toList)
    (packetMemory "bob/secret".toList) s
    (Runs.reached_mono (fun _ _ _ => trivial) (Runs.replay_reached hs))
  obtain ⟨userName,userPasswd,hdivided,hnone⟩ := Credentials.taken_divided hlogin
  have hown := htokens.credentials userName userPasswd hdivided
  rw [hnone] at hown
  exact absurd hown (by decide +kernel)

end WindCloud
