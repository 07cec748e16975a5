import Mathlib.Data.Nat.ModEq
import Mathlib.Logic.Function.Basic

/-! # Circular buffers

A queue laid out in `n` cells from the position `r` on, modulo `n`. The position is
the number of elements ever taken, so it grows forever; the index into the cells is
its remainder.
-/
namespace ComplexOS.CircularBuffer
variable {α : Type*}

/-- The index after `i` where `last` is the last index. -/
def advance (last i : ℕ) : ℕ := if i = last then 0 else i+1

theorem advance_mod (last k : ℕ) : advance last (k % (last+1)) = (k+1) % (last+1) := by
  have hlt : k % (last+1) < last+1 := Nat.mod_lt _ (Nat.succ_pos last)
  have hsucc : (k+1) % (last+1) = (k % (last+1)+1) % (last+1) := by rw [Nat.mod_add_mod]
  rw [advance,hsucc]
  split
  · rename_i h
    rw [h,Nat.mod_self]
  · rename_i h
    rw [Nat.mod_eq_of_lt (by omega : k % (last+1)+1 < last+1)]

def Holds (cells : ℕ → α) (n r : ℕ) (contents : List α) : Prop :=
  ∀ k a, contents[k]? = some a → cells ((r+k) % n) = a

variable {cells : ℕ → α} {n r : ℕ} {contents : List α} {a : α}

theorem holds_nil : Holds cells n r [] := by
  intro k a h
  simp at h

theorem Holds.front (h : Holds cells n r (a::contents)) : cells (r % n) = a := h 0 a rfl

theorem Holds.take (h : Holds cells n r (a::contents)) : Holds cells n (r+1) contents := by
  intro k b hb
  rw [Nat.add_assoc,Nat.add_comm 1 k]
  exact h (k+1) b hb

/-- Two positions less than a round apart have different indices. -/
theorem index_ne {j k : ℕ} (hjk : j < k) (hk : k < n) : (r+j) % n ≠ (r+k) % n := by
  intro h
  have hm : j % n = k % n := Nat.ModEq.add_left_cancel' r h
  rw [Nat.mod_eq_of_lt (hjk.trans hk),Nat.mod_eq_of_lt hk] at hm
  exact hjk.ne hm

/-- A buffer with a free cell takes one more element behind the others. -/
theorem Holds.put (h : Holds cells n r contents) (hl : contents.length < n) :
    Holds (Function.update cells ((r+contents.length) % n) a) n r (contents++[a]) := by
  intro k b hb
  rcases Nat.lt_trichotomy k contents.length with hk | rfl | hk
  · rw [List.getElem?_append_left hk] at hb
    rw [Function.update_of_ne (index_ne hk hl)]
    exact h k b hb
  · rw [Function.update_self]
    simpa using hb
  · rw [List.getElem?_eq_none (by simp; omega)] at hb
    cases hb

variable {cells' : ℕ → α} {xs ys : List α}

/-- An element goes in between: those behind it have moved up by one cell. -/
theorem Holds.insert (h : Holds cells n r (xs++ys))
    (hkeep : ∀ k, k < xs.length → cells' ((r+k) % n) = cells ((r+k) % n))
    (hput : cells' ((r+xs.length) % n) = a)
    (hmove : ∀ k, xs.length ≤ k → k < xs.length+ys.length →
      cells' ((r+(k+1)) % n) = cells ((r+k) % n)) : Holds cells' n r (xs++a::ys) := by
  intro k b hb
  rcases Nat.lt_trichotomy k xs.length with hk | rfl | hk
  · rw [List.getElem?_append_left hk] at hb
    rw [hkeep k hk]
    exact h k b (by rw [List.getElem?_append_left hk]; exact hb)
  · rw [hput]
    simpa using hb
  · obtain ⟨j,rfl⟩ : ∃ j, k = j+1 := ⟨k-1,by omega⟩
    have hj : xs.length ≤ j := by omega
    rw [List.getElem?_append_right (by omega),Nat.succ_sub hj,List.getElem?_cons_succ] at hb
    obtain ⟨hlt,-⟩ := List.getElem?_eq_some_iff.mp hb
    rw [hmove j hj (by omega)]
    exact h j b (by rw [List.getElem?_append_right hj]; exact hb)

/-- An element comes out: those behind it have moved down by one cell. -/
theorem Holds.delete (h : Holds cells n r (xs++a::ys))
    (hkeep : ∀ k, k < xs.length → cells' ((r+k) % n) = cells ((r+k) % n))
    (hmove : ∀ k, xs.length ≤ k → k < xs.length+ys.length →
      cells' ((r+k) % n) = cells ((r+(k+1)) % n)) : Holds cells' n r (xs++ys) := by
  intro k b hb
  by_cases hk : k < xs.length
  · rw [List.getElem?_append_left hk] at hb
    rw [hkeep k hk]
    exact h k b (by rw [List.getElem?_append_left hk]; exact hb)
  · have hle : xs.length ≤ k := Nat.le_of_not_lt hk
    rw [List.getElem?_append_right hle] at hb
    obtain ⟨hlt,-⟩ := List.getElem?_eq_some_iff.mp hb
    rw [hmove k hle (by omega)]
    refine h (k+1) b ?_
    rw [List.getElem?_append_right (by omega),Nat.succ_sub hle,List.getElem?_cons_succ]
    exact hb

def contentsFrom (cells : ℕ → α) (n r k : ℕ) : List α :=
  (List.range k).map (fun i => cells ((r+i) % n))

@[simp] theorem length_contentsFrom (cells : ℕ → α) (n r k : ℕ) :
    (contentsFrom cells n r k).length = k := by
  simp [contentsFrom]

theorem holds_contentsFrom (cells : ℕ → α) (n r k : ℕ) :
    Holds cells n r (contentsFrom cells n r k) := by
  intro i a h
  obtain ⟨hi,ha⟩ := List.getElem?_eq_some_iff.mp h
  rw [← ha]
  simp [contentsFrom]

theorem Holds.eq_contentsFrom (h : Holds cells n r contents) :
    contents = contentsFrom cells n r contents.length := by
  refine List.ext_getElem (length_contentsFrom _ _ _ _).symm (fun i hi _ => ?_)
  rw [← h i contents[i] (List.getElem?_eq_getElem hi)]
  simp [contentsFrom]

end ComplexOS.CircularBuffer
