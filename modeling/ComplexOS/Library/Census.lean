import Mathlib.Algebra.GroupWithZero.Nat
import Mathlib.Data.List.Basic
import Mathlib.Data.Finset.Card

/-! # Counting the members of a population

A list of members of which one at a time joins, changes or leaves, and the number of
those of a kind. The laws are additive, so that linear arithmetic can use them.
-/
namespace ComplexOS.Census
variable {α : Type*} {p : α → Bool} {members : List α} {a b : α} {i : ℕ}

theorem count_cons : (a::members).countP p = members.countP p+(p a).toNat := by
  cases h : p a <;> simp [h]

theorem count_join : (members++[a]).countP p = members.countP p+(p a).toNat := by
  rw [List.countP_append,count_cons,List.countP_nil,Nat.zero_add]

theorem count_set (h : members[i]? = some a) :
    (members.set i b).countP p+(p a).toNat = members.countP p+(p b).toNat := by
  induction members generalizing i with
  | nil => simp at h
  | cons x xs ih =>
    cases i with
    | zero =>
      cases h
      rw [List.set_cons_zero,count_cons,count_cons,Nat.add_right_comm]
    | succ i =>
      have := ih h
      rw [List.set_cons_succ,count_cons,count_cons]
      omega

theorem count_set_same (h : members[i]? = some a) (hp : p b = p a) :
    (members.set i b).countP p = members.countP p := by
  have := count_set (p := p) (b := b) h
  rw [hp] at this
  exact Nat.add_right_cancel this

theorem count_leave (h : members[i]? = some a) :
    (members.eraseIdx i).countP p+(p a).toNat = members.countP p := by
  induction members generalizing i with
  | nil => simp at h
  | cons x xs ih =>
    cases i with
    | zero =>
      cases h
      rw [List.eraseIdx_cons_zero,count_cons]
    | succ i =>
      have := ih h
      rw [List.eraseIdx_cons_succ,count_cons,count_cons]
      omega

theorem sum_set {f : α → ℕ} (h : members[i]? = some a) :
    ((members.set i b).map f).sum+f a = (members.map f).sum+f b := by
  induction members generalizing i with
  | nil => simp at h
  | cons x xs ih =>
    cases i with
    | zero =>
      cases h
      rw [List.set_cons_zero,List.map_cons,List.map_cons,List.sum_cons,List.sum_cons]
      omega
    | succ i =>
      have := ih h
      rw [List.set_cons_succ,List.map_cons,List.map_cons,List.sum_cons,List.sum_cons]
      omega

theorem sum_join {f : α → ℕ} : ((members++[a]).map f).sum = (members.map f).sum+f a := by
  rw [List.map_append,List.map_singleton,List.sum_append,List.sum_singleton]

theorem sum_eq_zero {f : α → ℕ} (h : ∀ a ∈ members, f a = 0) : (members.map f).sum = 0 := by
  induction members with
  | nil => rfl
  | cons x xs ih =>
    rw [List.map_cons,List.sum_cons,h x List.mem_cons_self,
      ih (fun a ha => h a (List.mem_cons_of_mem _ ha))]

theorem sum_leave {f : α → ℕ} (h : members[i]? = some a) :
    ((members.eraseIdx i).map f).sum+f a = (members.map f).sum := by
  induction members generalizing i with
  | nil => simp at h
  | cons x xs ih =>
    cases i with
    | zero =>
      cases h
      rw [List.eraseIdx_cons_zero,List.map_cons,List.sum_cons]
      omega
    | succ i =>
      have := ih h
      rw [List.eraseIdx_cons_succ,List.map_cons,List.map_cons,List.sum_cons,List.sum_cons]
      omega

theorem map_set_same {β : Type*} {f : α → β} (h : members[i]? = some a) (hf : f b = f a) :
    (members.set i b).map f = members.map f := by
  obtain ⟨hlt,rfl⟩ := List.getElem?_eq_some_iff.mp h
  rw [List.map_set,hf,← List.getElem_map f (h := by simpa using hlt),List.set_getElem_self]

/-- A member is the one that has changed, or stands elsewhere. -/
theorem mem_set_cases {c : α} (h : c ∈ members.set i b) :
    c = b ∨ ∃ j, j ≠ i ∧ members[j]? = some c := by
  obtain ⟨j,hj⟩ := List.mem_iff_getElem?.mp h
  by_cases hij : j = i
  · subst hij
    rw [List.getElem?_set_self'] at hj
    obtain ⟨-,-,rfl⟩ := Option.map_eq_some_iff.mp hj
    exact Or.inl rfl
  · rw [List.getElem?_set_ne (Ne.symm hij)] at hj
    exact Or.inr ⟨j,hij,hj⟩

theorem mem_set_self (h : members[i]? = some a) : b ∈ members.set i b := by
  obtain ⟨hlt,-⟩ := List.getElem?_eq_some_iff.mp h
  exact List.mem_set hlt b

theorem mem_set_of_ne {c : α} {j : ℕ} (h : members[j]? = some c) (hij : j ≠ i) :
    c ∈ members.set i b := by
  refine List.mem_of_getElem? (i := j) ?_
  rwa [List.getElem?_set_ne (Ne.symm hij)]

/-! ### Populations given by a predicate -/

/-- The members with the property are `n` in number. -/
def Tally (p : α → Prop) (n : ℕ) : Prop := ∃ S : Finset α, (∀ a, a ∈ S ↔ p a) ∧ S.card = n

namespace Tally
variable {p q : α → Prop} {n : ℕ} {S : Finset α}

theorem none (h : ∀ a, ¬ p a) : Tally p 0 := ⟨∅,fun a => by simp [h a],rfl⟩

theorem card_le (h : Tally p n) (hs : ∀ a ∈ S, p a) : S.card ≤ n := by
  obtain ⟨T,hT,rfl⟩ := h
  exact Finset.card_le_card (fun a ha => (hT a).mpr (hs a ha))

/-- One member joins, leaves or stays. -/
theorem moved [DecidableEq α] [Decidable (p a)] [Decidable (q a)] (h : Tally p n)
    (hoff : ∀ x, x ≠ a → (q x ↔ p x)) :
    ∃ m, Tally q m ∧ m+(if p a then 1 else 0) = n+(if q a then 1 else 0) := by
  obtain ⟨S,hS,rfl⟩ := h
  have hmem : ∀ x, x ≠ a → (x ∈ S ↔ q x) := fun x hx => (hS x).trans (hoff x hx).symm
  by_cases hq : q a
  · refine ⟨(insert a S).card,⟨insert a S,fun x => ?_,rfl⟩,?_⟩
    · by_cases hx : x = a
      · subst hx
        simp [hq]
      · rw [Finset.mem_insert,hmem x hx]
        simp [hx]
    · by_cases hp : p a
      · rw [Finset.insert_eq_of_mem ((hS a).mpr hp),if_pos hp,if_pos hq]
      · rw [Finset.card_insert_of_notMem (fun ha => hp ((hS a).mp ha)),if_neg hp,if_pos hq]
  · refine ⟨(S.erase a).card,⟨S.erase a,fun x => ?_,rfl⟩,?_⟩
    · by_cases hx : x = a
      · subst hx
        simp [hq]
      · rw [Finset.mem_erase,hmem x hx]
        simp [hx]
    · by_cases hp : p a
      · rw [if_pos hp,if_neg hq,Finset.card_erase_add_one ((hS a).mpr hp),Nat.add_zero]
      · rw [Finset.erase_eq_of_notMem (fun ha => hp ((hS a).mp ha)),if_neg hp,if_neg hq]

end Tally

end ComplexOS.Census
