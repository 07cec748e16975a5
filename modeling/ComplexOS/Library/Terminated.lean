import Mathlib.Data.List.TakeWhile

/-! # Lists up to a terminator

The part of a list before the first occurrence of an element, and the part behind it.
-/
namespace ComplexOS.Terminated
variable {α : Type*} [DecidableEq α]

def upTo (x : α) (l : List α) : List α := l.takeWhile (fun y => decide (y ≠ x))

def behind (x : α) (l : List α) : List α := (l.dropWhile (fun y => decide (y ≠ x))).tail

variable {x : α} {l r : List α}

theorem upTo_append (h : x ∉ l) : upTo x (l++x::r) = l := by
  have hall : ∀ y ∈ l, decide (y ≠ x) = true := fun y hy =>
    decide_eq_true (fun he => h (he ▸ hy))
  unfold upTo
  rw [List.takeWhile_append_of_pos hall,List.takeWhile_cons,if_neg (by simp),List.append_nil]

theorem behind_append (h : x ∉ l) : behind x (l++x::r) = r := by
  have hall : ∀ y ∈ l, decide (y ≠ x) = true := fun y hy =>
    decide_eq_true (fun he => h (he ▸ hy))
  unfold behind
  rw [List.dropWhile_append_of_pos hall,List.dropWhile_cons,if_neg (by simp)]
  rfl

/-- A list is what comes before the terminator, the terminator, and what comes behind it. -/
theorem exists_split (h : x ∈ l) : ∃ pre post, x ∉ pre ∧ l = pre++x::post := by
  obtain ⟨pre,post,rfl⟩ := List.append_of_mem h
  induction pre with
  | nil => exact ⟨[],post,List.not_mem_nil,rfl⟩
  | cons y pre ih =>
    by_cases hy : x = y
    · subst hy
      exact ⟨[],pre++x::post,List.not_mem_nil,rfl⟩
    · obtain ⟨pre',post',hpre,hl⟩ := ih (List.mem_append_right _ List.mem_cons_self)
      refine ⟨y::pre',post',?_,?_⟩
      · rw [List.mem_cons]
        exact not_or.mpr ⟨hy,hpre⟩
      · rw [List.cons_append,hl]
        rfl

/-- A terminator among the first elements cuts them short. -/
theorem upTo_length_lt (h : x ∈ l) : (upTo x (l++r)).length < l.length := by
  obtain ⟨pre,post,hpre,rfl⟩ := exists_split h
  rw [List.append_assoc,List.cons_append,upTo_append hpre,List.length_append,List.length_cons]
  omega

end ComplexOS.Terminated
