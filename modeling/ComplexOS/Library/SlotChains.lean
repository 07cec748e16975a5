import Mathlib.Data.List.Basic
import Mathlib.Logic.Function.Basic

/-! # Chains through slots

A `next` function on slots links lists inside tables. `Path next c js e` says that
from slot `c` the links visit exactly `js` and then point at `e`.
-/
namespace ComplexOS.SlotChains
variable {α : Type*}

def Path (next : α → α) : α → List α → α → Prop
  | c, [], e => c = e
  | c, j::js, e => c = j ∧ Path next (next j) js e

def follow (next : α → α) : ℕ → α → List α
  | 0, _ => []
  | n+1, c => c::follow next n (next c)

variable {next next' : α → α} {c e : α} {xs ys js : List α} {j k : α}

@[simp] theorem path_nil : Path next c [] e ↔ c = e := Iff.rfl

@[simp] theorem path_cons : Path next c (j::js) e ↔ c = j ∧ Path next (next j) js e := Iff.rfl

theorem path_append : Path next c (xs++ys) e ↔ ∃ m, Path next c xs m ∧ Path next m ys e := by
  induction xs generalizing c with
  | nil => simp
  | cons x xs ih => simp [ih,and_assoc]

theorem path_snoc : Path next c (xs++[j]) e ↔ Path next c xs j ∧ next j = e := by
  simp [path_append]

/-- Only the links of visited slots matter. -/
theorem Path.congr (h : Path next c js e) (hn : ∀ i ∈ js, next' i = next i) :
    Path next' c js e := by
  induction js generalizing c with
  | nil => exact h
  | cons j js ih =>
    refine ⟨h.1,?_⟩
    rw [hn j List.mem_cons_self]
    exact ih h.2 (fun i hi => hn i (List.mem_cons_of_mem _ hi))

/-- A chain may be followed past its last slot to wherever that slot is made to point. -/
theorem Path.relink [DecidableEq α] (h : Path next c (xs++[j]) e) (hj : j ∉ xs) (m : α) :
    Path (Function.update next j m) c (xs++[j]) m := by
  rw [path_snoc] at h ⊢
  refine ⟨h.1.congr (fun i hi => ?_),Function.update_self _ _ _⟩
  exact Function.update_of_ne (fun he => hj (by rw [← he]; exact hi)) _ _

/-- A slot leaves the chain when the one before it is made to point past it. -/
theorem Path.skip [DecidableEq α] (h : Path next c (xs++j::k::ys) e) (hx : j ∉ xs)
    (hy : j ∉ ys) : Path (Function.update next j (next k)) c (xs++j::ys) e := by
  rw [path_append] at h ⊢
  obtain ⟨m,hxs,hm,hk,hys⟩ := h
  refine ⟨m,hxs.congr (fun i hi => ?_),hm,?_⟩
  · exact Function.update_of_ne (fun he => hx (by rw [← he]; exact hi)) _ _
  · rw [Function.update_self]
    exact hys.congr (fun i hi =>
      Function.update_of_ne (fun he => hy (by rw [← he]; exact hi)) _ _)

theorem follow_of_path (h : Path next c js e) : follow next js.length c = js := by
  induction js generalizing c with
  | nil => rfl
  | cons j js ih =>
    obtain ⟨rfl,h⟩ := h
    rw [List.length_cons,follow,ih h]

theorem path_follow (next : α → α) (n : ℕ) (c : α) : ∃ e, Path next c (follow next n c) e := by
  induction n generalizing c with
  | zero => exact ⟨c,rfl⟩
  | succ n ih =>
    obtain ⟨e,h⟩ := ih (next c)
    exact ⟨e,rfl,h⟩

@[simp] theorem length_follow (n : ℕ) : (follow next n c).length = n := by
  induction n generalizing c with
  | zero => rfl
  | succ n ih => rw [follow,List.length_cons,ih]

end ComplexOS.SlotChains
