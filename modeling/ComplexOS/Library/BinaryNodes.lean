import Mathlib.Data.Nat.Log
import Mathlib.Tactic.Ring
import Mathlib.Tactic.Linarith

/-! # Nodes of a binary tree numbered from one

Node `i` has the children `2*i` and `2*i+1`, so halving walks to the root. The
path relation is linear, and the nodes of one level below a node are exactly the
numbers with one fixed quotient. Nothing here depends on the tree's height.
-/
namespace ComplexOS.BinaryNodes

/-- `j` is on the path from `i` to the root, `i` itself included. -/
def Above (j i : ℕ) : Prop := ∃ m, i / 2^m = j

def depth (i : ℕ) : ℕ := Nat.log 2 i

theorem Above.refl (i : ℕ) : Above i i := ⟨0, by simp⟩

theorem above_half (i : ℕ) : Above (i/2) i := ⟨1, by simp⟩

theorem Above.trans {i j k : ℕ} (h : Above i j) (h' : Above j k) : Above i k := by
  obtain ⟨m, rfl⟩ := h
  obtain ⟨n, rfl⟩ := h'
  exact ⟨n+m, by rw [pow_add, Nat.div_div_eq_div_mul]⟩

theorem Above.le {j i : ℕ} (h : Above j i) : j ≤ i := by
  obtain ⟨m, rfl⟩ := h
  exact Nat.div_le_self _ _

/-- A path step: either the node itself, or above its half. -/
theorem above_iff {j i : ℕ} : Above j i ↔ j = i ∨ Above j (i/2) := by
  constructor
  · rintro ⟨m, rfl⟩
    cases m with
    | zero => simp
    | succ m => exact Or.inr ⟨m, by rw [Nat.div_div_eq_div_mul, pow_succ, Nat.mul_comm]⟩
  · rintro (rfl | h)
    · exact Above.refl _
    · exact h.trans (above_half i)

/-- Two nodes above a common node are comparable. -/
theorem Above.linear {a b i : ℕ} (ha : Above a i) (hb : Above b i) : Above a b ∨ Above b a := by
  obtain ⟨m, rfl⟩ := ha
  obtain ⟨n, rfl⟩ := hb
  rcases Nat.le_total m n with h | h
  · refine Or.inr ⟨n-m, ?_⟩
    rw [Nat.div_div_eq_div_mul, ← pow_add, Nat.add_sub_cancel' h]
  · refine Or.inl ⟨m-n, ?_⟩
    rw [Nat.div_div_eq_div_mul, ← pow_add, Nat.add_sub_cancel' h]

theorem depth_double {i : ℕ} (hi : 0 < i) : depth (2*i) = depth i + 1 := by
  rw [depth, Nat.mul_comm]
  exact Nat.log_mul_base (by omega) (by omega)

theorem depth_double_add_one {i : ℕ} (hi : 0 < i) : depth (2*i+1) = depth i + 1 := by
  have h := Nat.log_div_base 2 (2*i+1)
  have hh : (2*i+1)/2 = i := by omega
  have hp : 0 < Nat.log 2 (2*i+1) := Nat.log_pos (by omega) (by omega)
  rw [hh] at h
  simp only [depth]
  omega

theorem pow_depth_le {i : ℕ} (hi : 0 < i) : 2^(depth i) ≤ i :=
  Nat.pow_log_le_self 2 (by omega)

theorem lt_pow_depth (i : ℕ) : i < 2^(depth i + 1) :=
  Nat.lt_pow_succ_log_self (by omega) i

/-- The depth is determined by the level's bounds. -/
theorem depth_eq {i d : ℕ} (hlo : 2^d ≤ i) (hhi : i < 2^(d+1)) : depth i = d :=
  (Nat.log_eq_iff (Or.inr ⟨by omega, by
    have := Nat.pos_of_ne_zero (n := 2^d) (by positivity)
    omega⟩)).mpr ⟨hlo, hhi⟩

/-- Halving `m` times rises `m` levels. -/
theorem depth_div_pow {i m : ℕ} (h : 0 < i / 2^m) : depth (i/2^m) + m = depth i := by
  induction m generalizing i with
  | zero => simp
  | succ m ih =>
    have hd : i / 2^(m+1) = i/2/2^m := by rw [Nat.div_div_eq_div_mul, pow_succ, Nat.mul_comm]
    rw [hd] at h ⊢
    have hi : 0 < i/2 := Nat.pos_of_ne_zero (by rintro h0; simp [h0] at h)
    have hs : depth i = depth (i/2) + 1 := by
      rcases Nat.even_or_odd' i with ⟨c, rfl | rfl⟩
      · rw [depth_double (by omega)]
        simp
      · rw [depth_double_add_one (by omega)]
        congr 2
        omega
    have := ih h
    omega

end ComplexOS.BinaryNodes
