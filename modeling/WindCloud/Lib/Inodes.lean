import Mathlib.Logic.Function.Basic
import Mathlib.Tactic.Common

/-!
# Named files behind numbered contents

A name refers to a numbered content, and an open file keeps its number after
the name is gone. No two names share a number and numbers are not used twice,
both carried by the structure.
-/

set_option autoImplicit false

open Function

structure Inodes (N α : Type) where
  names : N → Option ℕ
  data : ℕ → α
  next : ℕ
  below : ∀ {p n}, names p = some n → n < next
  single : ∀ {p q n}, names p = some n → names q = some n → p = q

namespace Inodes

variable {N α : Type}

def empty (a : α) : Inodes N α where
  names := fun _ => none
  data := fun _ => a
  next := 0
  below := by simp
  single := by simp

def read (s : Inodes N α) (p : N) : Option α := (s.names p).map s.data

def modify (s : Inodes N α) (n : ℕ) (a : α) : Inodes N α := { s with data := update s.data n a }

section

variable [DecidableEq N]

def create (s : Inodes N α) (p : N) (a : α) : Inodes N α where
  names := update s.names p (some s.next)
  data := update s.data s.next a
  next := s.next+1
  below := by
    intro q n h
    by_cases hq : q = p
    · subst hq
      have he : s.next = n := by simpa using h
      omega
    · have hs := s.below (by simpa [hq] using h)
      omega
  single := by
    intro q r n hq hr
    by_cases h1 : q = p <;> by_cases h2 : r = p
    · rw [h1,h2]
    · subst h1
      have he : s.next = n := by simpa using hq
      have hs := s.below (by simpa [h2] using hr)
      omega
    · subst h2
      have he : s.next = n := by simpa using hr
      have hs := s.below (by simpa [h1] using hq)
      omega
    · exact s.single (by simpa [h1] using hq) (by simpa [h2] using hr)

/-- The number a name refers to, given to it first where it has none. -/
def openOrCreate (s : Inodes N α) (p : N) (a : α) : ℕ × Inodes N α :=
  match s.names p with
  | some n => (n,s)
  | none => (s.next,s.create p a)

def unlink (s : Inodes N α) (p : N) : Inodes N α where
  names := update s.names p none
  data := s.data
  next := s.next
  below := by
    intro q n h
    by_cases hq : q = p
    · simp [hq] at h
    · exact s.below (by simpa [hq] using h)
  single := by
    intro q r n hq hr
    by_cases h1 : q = p
    · simp [h1] at hq
    by_cases h2 : r = p
    · simp [h2] at hr
    · exact s.single (by simpa [h1] using hq) (by simpa [h2] using hr)

end

@[simp] theorem modify_names (s : Inodes N α) (n : ℕ) (a : α) : (s.modify n a).names = s.names :=
  rfl

@[simp] theorem modify_next (s : Inodes N α) (n : ℕ) (a : α) : (s.modify n a).next = s.next := rfl

@[simp] theorem modify_data (s : Inodes N α) (n : ℕ) (a : α) :
    (s.modify n a).data = update s.data n a := rfl

theorem read_eq {s : Inodes N α} {p : N} {n : ℕ} (h : s.names p = some n) :
    s.read p = some (s.data n) := by
  simp [read,h]

theorem read_modify_self {s : Inodes N α} {p : N} {n : ℕ} (h : s.names p = some n) (a : α) :
    (s.modify n a).read p = some a := by
  simp [read,h]

theorem openOrCreate_names [DecidableEq N] (s : Inodes N α) (p : N) (a : α) :
    (s.openOrCreate p a).2.names p = some (s.openOrCreate p a).1 := by
  unfold openOrCreate
  cases h : s.names p with
  | none => simp [create]
  | some n => simpa using h

theorem openOrCreate_of_some [DecidableEq N] {s : Inodes N α} {p : N} {n : ℕ} (a : α)
    (h : s.names p = some n) : s.openOrCreate p a = (n,s) := by
  simp [openOrCreate,h]

theorem openOrCreate_of_none [DecidableEq N] {s : Inodes N α} {p : N} (a : α)
    (h : s.names p = none) : s.openOrCreate p a = (s.next,s.create p a) := by
  simp [openOrCreate,h]

theorem read_openOrCreate [DecidableEq N] (s : Inodes N α) (p q : N) (a : α) :
    (s.openOrCreate p a).2.read q = if q = p then some ((s.read p).getD a) else s.read q := by
  cases hp : s.names p with
  | some n =>
    rw [openOrCreate_of_some a hp]
    split
    · rename_i hq
      rw [hq,read_eq hp,Option.getD_some]
    · rfl
  | none =>
    rw [openOrCreate_of_none a hp]
    split
    · rename_i hq
      rw [hq]
      simp [read,create,hp]
    · rename_i hq
      cases hn : s.names q with
      | none => simp [read,create,hq,hn]
      | some n =>
        have hlt := s.below hn
        simp [read,create,hq,hn,show n ≠ s.next by omega]

@[simp] theorem create_names [DecidableEq N] (s : Inodes N α) (p : N) (a : α) :
    (s.create p a).names = update s.names p (some s.next) := rfl

@[simp] theorem create_data [DecidableEq N] (s : Inodes N α) (p : N) (a : α) :
    (s.create p a).data = update s.data s.next a := rfl

@[simp] theorem create_next [DecidableEq N] (s : Inodes N α) (p : N) (a : α) :
    (s.create p a).next = s.next+1 := rfl

end Inodes
