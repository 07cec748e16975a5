import ComplexOS.Library.Numerals
import ComplexOS.Scheduler.CallerBuffer

/-! # The text of a number

What `uintToBase` writes is the standard numeral of its value, with the digits `0` to `9` and
`A` to `Z`, and the value can be read off it again.
-/
namespace ComplexOS
open ByteMemory Numerals

def digitValue (c : UInt8) : ℕ := if c.toNat < 58 then c.toNat-48 else c.toNat-55

def evaluate (base : ℕ) (text : List UInt8) : ℕ := Numerals.value base (text.map digitValue)

variable {base value value' d r k : ℕ} {ds : List ℕ}

theorem digit_toNat (hd : d < 36) : (digit d).toNat = if d < 10 then d+48 else d+55 := by
  unfold digit
  split_ifs with h
  · exact UInt8.toNat_ofNat_of_lt' (by change d+48 < 256; omega)
  · rw [UInt8.toNat_ofNat_of_lt' (by change d+65-10 < 256; omega)]
    omega

theorem digitValue_digit (hd : d < 36) : digitValue (digit d) = d := by
  unfold digitValue
  rw [digit_toNat hd]
  split_ifs <;> omega

theorem digits_values (hds : ∀ d ∈ ds, d < 36) : (ds.map digit).map digitValue = ds := by
  rw [List.map_map]
  exact (List.map_congr_left (fun d hd => digitValue_digit (hds d hd))).trans (List.map_id ds)

theorem uintToBase_numeral : uintToBase value base = (numeral base value).map digit :=
  List.map_reverse.symm

theorem uintToBase_length : (uintToBase value base).length = (numeral base value).length := by
  rw [uintToBase_numeral,List.length_map]

theorem numeral_lt (hb : 2 ≤ base) (hle : base ≤ 36) : ∀ d ∈ numeral base value, d < 36 :=
  fun d hd => ((numeral_standard hb).lt d hd).trans_le hle

theorem evaluate_uintToBase (hb : 2 ≤ base) (hle : base ≤ 36) :
    evaluate base (uintToBase value base) = value := by
  unfold evaluate
  rw [uintToBase_numeral,digits_values (numeral_lt hb hle),value_numeral]

theorem uintToBase_injective (hb : 2 ≤ base) (hle : base ≤ 36)
    (h : uintToBase value base = uintToBase value' base) : value = value' := by
  calc value = evaluate base (uintToBase value base) := (evaluate_uintToBase hb hle).symm
    _ = evaluate base (uintToBase value' base) := by rw [h]
    _ = value' := evaluate_uintToBase hb hle

namespace CallerBuffer
variable {b : CallerBuffer}

/-- The digits of the standard numeral are written, then NUL, and counted; with them the value
is written as well. -/
theorem uintToBase_faithful (hb : 2 ≤ base) (hle : base ≤ 36) (hv : value < 2^64) :
    Standard base (numeral base value) ∧ Numerals.value base (numeral base value) = value ∧
      (∀ b : CallerBuffer, k+(numeral base value).length+1 ≤ b.bound →
        b.uintToBase value base k = some ((numeral base value).length,
          { b with bytes := place b.bytes k ((numeral base value).map digit++[0]) })) ∧
      evaluate base ((numeral base value).map digit) = value ∧
      ∀ value', (numeral base value').map digit = (numeral base value).map digit → value' = value := by
  refine ⟨numeral_standard hb,value_numeral base value,fun b hk => ?_,?_,fun value' h => ?_⟩
  · rw [← uintToBase_length] at hk ⊢
    rw [uintToBase_eq hb hv hk,uintToBase_numeral]
  · rw [← uintToBase_numeral]
    exact evaluate_uintToBase hb hle
  · rw [← uintToBase_numeral,← uintToBase_numeral] at h
    exact uintToBase_injective hb hle h

/-- The largest value in hexadecimal. -/
theorem uintToBase_faithful_max :
    CallerBuffer.uintToBase ⟨17,fun _ => 1⟩ (2^64-1) 16 0 =
      some (16,⟨17,place (fun _ => 1) 0 (List.replicate 16 70++[0])⟩) ∧
    evaluate 16 (List.replicate 16 70) = 2^64-1 := by
  obtain ⟨-,-,hw,he,-⟩ := uintToBase_faithful (k := 0) (show 2 ≤ 16 by decide) (show 16 ≤ 36 by decide)
    (show 2^64-1 < 2^64 by decide)
  have hn : numeral 16 (2^64-1) = List.replicate 16 15 := by
    norm_num [numeral,List.replicate]
  rw [hn] at hw he
  exact ⟨hw ⟨17,fun _ => 1⟩ (by decide),he⟩

end CallerBuffer
end ComplexOS
