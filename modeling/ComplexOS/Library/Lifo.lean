import ComplexOS.Library.Runs
import Mathlib.Data.List.Perm.Basic

/-! # Last in, first out

A stack that answers what it is asked: `take b` is possible only where `b` lies on top. A
history that is possible has taken nothing that was not put, and each thing once.
-/
namespace ComplexOS.Lifo
variable {α : Type*}

inductive Move (α : Type*)
  | put (b : α)
  | take (b : α)
  deriving DecidableEq, Repr

def step [DecidableEq α] : List α → Move α → Option (List α)
  | st, .put b => some (b::st)
  | b'::st, .take b => if b' = b then some st else none
  | [], .take _ => none

def puts (ms : List (Move α)) : List α :=
  ms.filterMap (fun | .put b => some b | .take _ => none)

def takes (ms : List (Move α)) : List α :=
  ms.filterMap (fun | .put _ => none | .take b => some b)

variable [DecidableEq α] {st st' : List α} {b : α} {ms : List (Move α)}

theorem step_take : step (b::st) (.take b) = some st := if_pos rfl

theorem run_put (h : Runs.run step [] ms = some st) :
    Runs.run step [] (ms++[.put b]) = some (b::st) :=
  Runs.run_append.mpr ⟨st,h,rfl⟩

theorem run_take (h : Runs.run step [] ms = some (b::st)) :
    Runs.run step [] (ms++[.take b]) = some st :=
  Runs.run_append.mpr ⟨b::st,h,Runs.run_cons.mpr ⟨st,step_take,rfl⟩⟩

/-- Nothing is lost, and nothing comes out twice. -/
theorem conserved (h : Runs.run step st ms = some st') :
    (puts ms++st).Perm (takes ms++st') := by
  induction ms generalizing st with
  | nil =>
    cases h
    exact List.Perm.refl _
  | cons m ms ih =>
    obtain ⟨u,hu,h⟩ := Runs.run_cons.mp h
    have hrest := ih h
    cases m with
    | put b =>
      cases hu
      exact (List.perm_middle.symm).trans hrest
    | take b =>
      cases st with
      | nil => cases hu
      | cons b' st =>
        obtain ⟨rfl,he⟩ := Option.ite_none_right_eq_some.mp hu
        obtain rfl := Option.some.inj he
        exact List.perm_middle.trans (hrest.cons b')

end ComplexOS.Lifo
