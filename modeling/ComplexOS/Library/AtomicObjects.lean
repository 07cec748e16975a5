import Mathlib.Data.Finset.Basic
import Mathlib.Logic.Function.Basic

/-! # Counters and locks

What counting semaphores and mutexes are for: a counter of permits and a lock with its
holder, each operation in one step. A `wait` without a permit and a `down` on a lock that is
held are no steps; an `up` by anyone but the holder changes nothing.
-/
namespace ComplexOS.Atomic
variable {κ μ τ : Type*}

structure Objects (κ μ τ : Type*) where
  permits : κ → ℕ
  holder : μ → Option τ

inductive Operation (κ μ : Type*)
  | wait (q : κ)
  | signal (q : κ)
  | down (m : μ)
  | up (m : μ)
  deriving DecidableEq, Repr

variable [DecidableEq κ] [DecidableEq μ] [DecidableEq τ]

def step (s : Objects κ μ τ) (e : τ × Operation κ μ) : Option (Objects κ μ τ) :=
  match e.2 with
  | .wait q =>
    if s.permits q = 0 then none
    else some { s with permits := Function.update s.permits q (s.permits q-1) }
  | .signal q => some { s with permits := Function.update s.permits q (s.permits q+1) }
  | .down m =>
    if s.holder m = none then some { s with holder := Function.update s.holder m (some e.1) }
    else none
  | .up m =>
    if s.holder m = some e.1 then some { s with holder := Function.update s.holder m none }
    else some s

variable {s : Objects κ μ τ} {q : κ} {m : μ} {t : τ}

theorem step_wait (h : s.permits q ≠ 0) : step s (t,.wait q) =
    some { s with permits := Function.update s.permits q (s.permits q-1) } := if_neg h

theorem step_down (h : s.holder m = none) : step s (t,.down m) =
    some { s with holder := Function.update s.holder m (some t) } := if_pos h

theorem step_up (h : s.holder m = some t) : step s (t,.up m) =
    some { s with holder := Function.update s.holder m none } := if_pos h

theorem step_up_other (h : s.holder m ≠ some t) : step s (t,.up m) = some s := if_neg h

variable {s' : Objects κ μ τ}

theorem step_wait_some (h : step s (t,.wait q) = some s') : s.permits q ≠ 0 ∧
    s'.permits = Function.update s.permits q (s.permits q-1) ∧ s'.holder = s.holder := by
  obtain ⟨hne,he⟩ := Option.ite_none_left_eq_some.mp h
  obtain rfl := Option.some.inj he
  exact ⟨hne,rfl,rfl⟩

theorem step_signal_some (h : step s (t,.signal q) = some s') :
    s'.permits = Function.update s.permits q (s.permits q+1) ∧ s'.holder = s.holder := by
  obtain rfl := Option.some.inj h
  exact ⟨rfl,rfl⟩

theorem step_down_some (h : step s (t,.down m) = some s') : s.holder m = none ∧
    s'.permits = s.permits ∧ s'.holder = Function.update s.holder m (some t) := by
  obtain ⟨hno,he⟩ := Option.ite_none_right_eq_some.mp h
  obtain rfl := Option.some.inj he
  exact ⟨hno,rfl,rfl⟩

theorem step_up_some (h : step s (t,.up m) = some s') : s'.permits = s.permits ∧
    s'.holder m = if s.holder m = some t then none else s.holder m := by
  by_cases hm : s.holder m = some t
  · rw [step_up hm] at h
    obtain rfl := Option.some.inj h
    exact ⟨rfl,by simp [hm]⟩
  · rw [step_up_other hm] at h
    obtain rfl := Option.some.inj h
    exact ⟨rfl,(if_neg hm).symm⟩

end ComplexOS.Atomic
