import ComplexOS.Ipc.ChannelCalls
import ComplexOS.Library.ByteMemory
import Mathlib.Data.Nat.Digits.Lemmas

/-! # Text in a caller's buffer

The stores of `memcpy` and of `uintToBase` into an array of the caller. A store outside the
array answers `none`. The number is written from its last digit on, gets its NUL, and is
then turned around in place.
-/
namespace ComplexOS
open ByteMemory

structure CallerBuffer where
  bound : ℕ
  bytes : ℕ → UInt8

namespace CallerBuffer
variable (b : CallerBuffer)

def load (i : ℤ) : Option UInt8 := if 0 ≤ i ∧ i < b.bound then some (b.bytes i.toNat) else none

def store (i : ℤ) (c : UInt8) : Option CallerBuffer :=
  if 0 ≤ i ∧ i < b.bound then some { b with bytes := Function.update b.bytes i.toNat c } else none

/-- `memcpy(buffer+i, text, length)`. -/
def copyText : ℤ → List UInt8 → CallerBuffer → Option CallerBuffer
  | _, [], b => some b
  | i, c::cs, b => (b.store i c).bind (copyText (i+1) cs)

/-- The first loop of `uintToBase`, with `p` and `digits` behind it. -/
def writeDigits (base : ℕ) : ℕ → ℕ → ℤ → ℕ → CallerBuffer → Option (ℤ × ℕ × CallerBuffer)
  | 0, _, _, _, _ => none
  | n+1, value, p, digits, b => (b.store p (digit (value % base))).bind (fun b =>
    if value/base = 0 then some (p+1,digits+1,b)
    else writeDigits base n (value/base) (p+1) (digits+1) b)

/-- The second loop. -/
def swapDigits : ℕ → ℤ → ℤ → CallerBuffer → Option CallerBuffer
  | 0, _, _, _ => none
  | n+1, p1, p2, b =>
    if p1 < p2 then (b.load p1).bind (fun tmp => (b.load p2).bind (fun c =>
      (b.store p1 c).bind (fun b => (b.store p2 tmp).bind (swapDigits n (p1+1) (p2-1)))))
    else some b

def uintToBase (value base : ℕ) (i : ℤ) : Option (ℕ × CallerBuffer) :=
  (writeDigits base 64 value i 0 b).bind (fun (p,digits,b) =>
    (b.store p 0).bind (fun b => (swapDigits 64 i (p-1) b).map (fun b => (digits,b))))

variable {b} {b' : CallerBuffer} {m : ℕ → UInt8} {i p : ℤ} {k lo hi n value base digits digits' : ℕ}
  {c : UInt8} {cs : List UInt8}

theorem store_at (hk : k < b.bound) :
    b.store k c = some { b with bytes := Function.update b.bytes k c } :=
  if_pos (by omega)

theorem load_at (hk : k < b.bound) : b.load k = some (b.bytes k) := if_pos (by omega)

theorem store_bound (h : b.store i c = some b') : b'.bound = b.bound := by
  unfold store at h
  split_ifs at h
  obtain rfl := Option.some.inj h
  rfl

theorem store_before (hi : i < 0) : b.store i c = none := if_neg (by omega)

/-! ### Texts -/

theorem copyText_eq (hk : k+cs.length ≤ b.bound) :
    copyText k cs b = some { b with bytes := place b.bytes k cs } := by
  induction cs generalizing k b with
  | nil => rfl
  | cons c cs ih =>
    rw [List.length_cons] at hk
    rw [copyText,store_at (by omega),Option.bind_some,← Nat.cast_succ]
    exact ih (b := { b with bytes := Function.update b.bytes k c }) (by change k+1+_ ≤ b.bound; omega)

theorem copyText_bound (h : copyText i cs b = some b') : b'.bound = b.bound := by
  induction cs generalizing i b with
  | nil =>
    obtain rfl := Option.some.inj h
    rfl
  | cons c cs ih =>
    obtain ⟨d,hd,h⟩ := Option.bind_eq_some_iff.mp h
    rw [ih h,store_bound hd]

/-! ### Numbers -/

def lastFirst (value base : ℕ) : List UInt8 :=
  (if value = 0 then [0] else Nat.digits base value).map digit

theorem lastFirst_reverse : (lastFirst value base).reverse = ComplexOS.uintToBase value base := rfl

theorem lastFirst_length : (lastFirst value base).length = (ComplexOS.uintToBase value base).length := by
  rw [← lastFirst_reverse,List.length_reverse]

theorem lastFirst_step (hb : 2 ≤ base) : lastFirst value base =
    digit (value % base)::(if value/base = 0 then [] else lastFirst (value/base) base) := by
  unfold lastFirst
  by_cases hv : value = 0
  · subst hv
    simp
  · rw [if_neg hv,Nat.digits_def' (by omega) (Nat.pos_of_ne_zero hv),List.map_cons]
    congr 1
    split_ifs with hd
    · rw [hd,Nat.digits_zero,List.map_nil]
    · rfl

theorem writeDigits_eq (hb : 2 ≤ base) (hv : value < 2^(n+1))
    (hk : k+(lastFirst value base).length ≤ b.bound) :
    writeDigits base (n+1) value k digits b =
      some (((k+(lastFirst value base).length : ℕ) : ℤ),digits+(lastFirst value base).length,
        { b with bytes := place b.bytes k (lastFirst value base) }) := by
  induction n generalizing value k digits b with
  | zero =>
    have hzero : value/base = 0 := Nat.div_eq_of_lt (by omega)
    rw [lastFirst_step hb,if_pos hzero] at hk ⊢
    rw [List.length_singleton] at hk
    rw [writeDigits,store_at (by omega),Option.bind_some,if_pos hzero]
    rfl
  | succ n ih =>
    rw [lastFirst_step hb] at hk ⊢
    rw [List.length_cons] at hk
    rw [writeDigits,store_at (by omega),Option.bind_some]
    split_ifs at hk ⊢ with hzero
    · rfl
    · have hless : value/base < 2^(n+1) := by
        have hhalf : value/base ≤ value/2 := Nat.div_le_div_left hb (by omega)
        rw [pow_succ] at hv
        omega
      rw [← Nat.cast_succ,ih (b := { b with bytes := Function.update b.bytes k (digit (value % base)) })
        hless (by change k+1+_ ≤ b.bound; omega)]
      rw [List.length_cons,Nat.succ_add k,Nat.succ_add digits]
      rfl

theorem writeDigits_some (hb : 2 ≤ base) (h : writeDigits base n value i digits b = some (p,digits',b')) :
    digits' = digits+(lastFirst value base).length ∧ b'.bound = b.bound := by
  induction n generalizing value i digits b with
  | zero => cases h
  | succ n ih =>
    obtain ⟨d,hd,h⟩ := Option.bind_eq_some_iff.mp h
    rw [lastFirst_step hb,List.length_cons]
    split_ifs at h ⊢ with hzero
    · cases h
      exact ⟨rfl,store_bound hd⟩
    · obtain ⟨hdigits,hbound⟩ := ih h
      exact ⟨by omega,by rw [hbound,store_bound hd]⟩

def flipped (m : ℕ → UInt8) (lo hi : ℕ) : ℕ → UInt8 :=
  fun x => if lo ≤ x ∧ x ≤ hi then m (lo+hi-x) else m x

theorem flipped_swap (h : lo < hi) : flipped
    (Function.update (Function.update m lo (m hi)) hi (m lo)) (lo+1) (hi-1) = flipped m lo hi := by
  funext x
  unfold flipped
  by_cases hin : lo+1 ≤ x ∧ x ≤ hi-1
  · have hx : lo+1+(hi-1)-x = lo+hi-x := by omega
    rw [if_pos hin,if_pos (by omega),Function.update_of_ne (by omega),Function.update_of_ne (by omega),hx]
  rw [if_neg hin]
  by_cases hlo : x = lo
  · have hx : lo+hi-x = hi := by omega
    rw [if_pos (by omega),hx,hlo,Function.update_of_ne (by omega),Function.update_self]
  by_cases hhi : x = hi
  · have hx : lo+hi-x = lo := by omega
    rw [if_pos (by omega),hx,hhi,Function.update_self]
  rw [if_neg (by omega),Function.update_of_ne hhi,Function.update_of_ne hlo]

theorem swapDigits_eq (hhi : hi < b.bound) (hle : lo ≤ hi+1) (hn : hi+1 < lo+2*n) :
    swapDigits n lo hi b = some { b with bytes := flipped b.bytes lo hi } := by
  induction n generalizing lo hi b with
  | zero => omega
  | succ n ih =>
    rw [swapDigits]
    by_cases hlt : lo < hi
    · have hnext : ((hi:ℤ)-1) = ((hi-1 : ℕ) : ℤ) := by omega
      rw [if_pos (by omega),load_at (by omega),Option.bind_some,load_at hhi,Option.bind_some,
        store_at (by omega),Option.bind_some,store_at (by change hi < b.bound; exact hhi),
        Option.bind_some,hnext,← Nat.cast_succ,
        ih (by change hi-1 < b.bound; omega) (by omega) (by omega)]
      exact congrArg (fun f => some { b with bytes := f }) (flipped_swap hlt)
    · have hsame : flipped b.bytes lo hi = b.bytes := by
        funext x
        unfold flipped
        split_ifs with hx
        · have hback : lo+hi-x = x := by omega
          rw [hback]
        · rfl
      rw [if_neg (by omega),hsame]

theorem swapDigits_bound {p1 p2 : ℤ} (h : swapDigits n p1 p2 b = some b') : b'.bound = b.bound := by
  induction n generalizing p1 p2 b with
  | zero => cases h
  | succ n ih =>
    rw [swapDigits] at h
    split_ifs at h
    · obtain ⟨tmp,-,h⟩ := Option.bind_eq_some_iff.mp h
      obtain ⟨c,-,h⟩ := Option.bind_eq_some_iff.mp h
      obtain ⟨b₁,h₁,h⟩ := Option.bind_eq_some_iff.mp h
      obtain ⟨b₂,h₂,h⟩ := Option.bind_eq_some_iff.mp h
      rw [ih h,store_bound h₂,store_bound h₁]
    · cases h
      rfl

theorem flipped_place (hcs : cs ≠ []) : flipped (place m k (cs++[0])) k (k+cs.length-1) =
    place m k (cs.reverse++[0]) := by
  have hpos : 0 < cs.length := List.length_pos_iff.mpr hcs
  funext x
  unfold flipped
  rw [place_apply,place_apply,place_apply]
  by_cases hin : k ≤ x ∧ x ≤ k+cs.length-1
  · have hback : k+(k+cs.length-1)-x-k = cs.length-1-(x-k) := by omega
    have hlast : (cs++[0])[cs.length-1-(x-k)]? = cs[cs.length-1-(x-k)]? :=
      List.getElem?_append_left (by omega)
    have hfirst : (cs.reverse++[0])[x-k]? = cs[cs.length-1-(x-k)]? := by
      rw [List.getElem?_append_left (by rw [List.length_reverse]; omega),
        List.getElem?_reverse (by omega)]
    obtain ⟨c,hc⟩ : ∃ c, cs[cs.length-1-(x-k)]? = some c :=
      ⟨_,List.getElem?_eq_getElem (by omega)⟩
    rw [if_pos hin,if_pos (by omega),if_pos hin.1,hback,hlast,hfirst,hc,Option.getD_some,
      Option.getD_some]
  · rw [if_neg hin]
    by_cases hle : k ≤ x
    · rw [if_pos hle,if_pos hle,List.getElem?_append_right (by omega),List.getElem?_append_right
        (by rw [List.length_reverse]; omega),List.length_reverse]
    · rw [if_neg hle,if_neg hle]

theorem lastFirst_ne_nil (hb : 2 ≤ base) : lastFirst value base ≠ [] := by
  rw [lastFirst_step hb]
  exact List.cons_ne_nil _ _

theorem uintToBase_length_le (hb : 2 ≤ base) (hv : value < 2^64) :
    (lastFirst value base).length ≤ 64 := by
  unfold lastFirst
  rw [List.length_map]
  split_ifs with hzero
  · rw [List.length_singleton]
    omega
  · have hlt : value < base^64 := hv.trans_le (Nat.pow_le_pow_left hb 64)
    exact (Nat.digits_length_le_iff (by omega) value).mpr hlt

/-- A number that fits with its NUL is written with it. -/
theorem uintToBase_eq (hb : 2 ≤ base) (hv : value < 2^64)
    (hk : k+(ComplexOS.uintToBase value base).length+1 ≤ b.bound) :
    b.uintToBase value base k = some ((ComplexOS.uintToBase value base).length,
      { b with bytes := place b.bytes k (ComplexOS.uintToBase value base++[0]) }) := by
  rw [← lastFirst_length] at hk ⊢
  have hpos : 0 < (lastFirst value base).length := List.length_pos_iff.mpr (lastFirst_ne_nil hb)
  have hlen := uintToBase_length_le hb hv
  have hlast : ((k+(lastFirst value base).length : ℕ) : ℤ)-1 =
      ((k+(lastFirst value base).length-1 : ℕ) : ℤ) := by omega
  have hbytes : Function.update (place b.bytes k (lastFirst value base))
      (k+(lastFirst value base).length) 0 = place b.bytes k (lastFirst value base++[0]) := by
    rw [place_append]
    rfl
  rw [uintToBase,writeDigits_eq hb hv (by omega),Option.bind_some]
  dsimp only
  rw [store_at (by change _ < b.bound; omega),Option.bind_some,hlast]
  dsimp only
  rw [hbytes,swapDigits_eq (by change _ < b.bound; omega) (by omega) (by omega),Option.map_some,Nat.zero_add]
  dsimp only
  rw [flipped_place (lastFirst_ne_nil hb),lastFirst_reverse]

theorem uintToBase_some (hb : 2 ≤ base) (h : b.uintToBase value base i = some (digits,b')) :
    digits = (ComplexOS.uintToBase value base).length ∧ b'.bound = b.bound := by
  obtain ⟨⟨p,d,b₁⟩,h₁,h⟩ := Option.bind_eq_some_iff.mp h
  obtain ⟨b₂,h₂,h⟩ := Option.bind_eq_some_iff.mp h
  obtain ⟨b₃,h₃,h⟩ := Option.map_eq_some_iff.mp h
  cases h
  obtain ⟨hdigits,hbound⟩ := writeDigits_some hb h₁
  exact ⟨by rw [hdigits,Nat.zero_add,lastFirst_length],
    by rw [swapDigits_bound h₃,store_bound h₂,hbound]⟩

end CallerBuffer
end ComplexOS
