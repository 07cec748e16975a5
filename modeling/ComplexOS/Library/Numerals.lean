import Mathlib.Data.Nat.Digits.Lemmas

/-! # Positional numerals

Numerals with the most significant digit first, as they are printed. Zero has one digit.
-/
namespace ComplexOS.Numerals

def numeral (base n : ℕ) : List ℕ := (if n = 0 then [0] else Nat.digits base n).reverse

/-- What the digits stand for, as it is computed from left to right. -/
def value (base : ℕ) (ds : List ℕ) : ℕ := ds.foldl (fun n d => n*base+d) 0

/-- Digits of the base, at least one, and none before the others that is zero. -/
structure Standard (base : ℕ) (ds : List ℕ) : Prop where
  ne_nil : ds ≠ []
  lt : ∀ d ∈ ds, d < base
  leading : ds.head? = some 0 → ds = [0]

variable {base n k : ℕ} {ds : List ℕ}

theorem value_eq_ofDigits (base : ℕ) (ds : List ℕ) : value base ds = Nat.ofDigits base ds.reverse := by
  rw [Nat.ofDigits_eq_foldr,List.foldr_reverse]
  unfold value
  congr 1
  funext x d
  rw [Nat.cast_id,Nat.mul_comm,Nat.add_comm]

theorem numeral_zero (base : ℕ) : numeral base 0 = [0] := rfl

theorem numeral_of_ne_zero (h : n ≠ 0) : numeral base n = (Nat.digits base n).reverse := by
  unfold numeral
  rw [if_neg h]

/-- Reading the numeral gives the number back. -/
theorem value_numeral (base n : ℕ) : value base (numeral base n) = n := by
  by_cases h : n = 0
  · subst h
    simp [numeral_zero,value]
  · rw [numeral_of_ne_zero h,value_eq_ofDigits,List.reverse_reverse,Nat.ofDigits_digits]

theorem numeral_standard (hb : 2 ≤ base) : Standard base (numeral base n) := by
  by_cases h : n = 0
  · subst h
    refine ⟨List.cons_ne_nil _ _,fun d hd => ?_,fun _ => rfl⟩
    rw [List.mem_singleton.mp hd]
    omega
  · have hne : Nat.digits base n ≠ [] := Nat.digits_ne_nil_iff_ne_zero.mpr h
    rw [numeral_of_ne_zero h]
    refine ⟨fun hnil => hne (List.reverse_eq_nil_iff.mp hnil),fun d hd => ?_,fun hhead => ?_⟩
    · exact Nat.digits_lt_base hb (List.mem_reverse.mp hd)
    · rw [List.head?_reverse,List.getLast?_eq_some_getLast hne] at hhead
      exact absurd (Option.some.inj hhead) (Nat.getLast_digit_ne_zero base h)

/-- A standard numeral is the numeral of its value. -/
theorem Standard.numeral_value (hb : 2 ≤ base) (h : Standard base ds) :
    numeral base (value base ds) = ds := by
  by_cases hzero : ds.head? = some 0
  · have hvalue : value base [0] = 0 := by simp [value]
    rw [h.leading hzero,hvalue,numeral_zero]
  have hdigits : Nat.digits base (Nat.ofDigits base ds.reverse) = ds.reverse := by
    refine Nat.digits_ofDigits base hb _ (fun d hd => h.lt d (List.mem_reverse.mp hd)) (fun hne hlast => ?_)
    rw [List.getLast_reverse] at hlast
    exact hzero (by rw [List.head?_eq_some_head h.ne_nil,hlast])
  have hpos : Nat.ofDigits base ds.reverse ≠ 0 := by
    intro h0
    rw [h0,Nat.digits_zero] at hdigits
    exact h.ne_nil (List.reverse_eq_nil_iff.mp hdigits.symm)
  rw [value_eq_ofDigits,numeral_of_ne_zero hpos,hdigits,List.reverse_reverse]

/-- More digits behind a standard numeral make another one unless it is zero. -/
theorem Standard.append {ds' : List ℕ} (h : Standard base ds) (hlt : ∀ d ∈ ds', d < base)
    (h0 : ds ≠ [0]) : Standard base (ds++ds') := by
  refine ⟨List.append_ne_nil_of_left_ne_nil h.ne_nil _,fun d hd => ?_,fun hhead => ?_⟩
  · exact (List.mem_append.mp hd).elim (h.lt d) (hlt d)
  · rw [List.head?_append_of_ne_nil _ h.ne_nil] at hhead
    exact absurd (h.leading hhead) h0

theorem numeral_length_le (hb : 2 ≤ base) (hk : 0 < k) (hn : n < base^k) : (numeral base n).length ≤ k := by
  by_cases h : n = 0
  · subst h
    exact hk
  · rw [numeral_of_ne_zero h,List.length_reverse]
    exact (Nat.digits_length_le_iff hb n).mpr hn

end ComplexOS.Numerals
