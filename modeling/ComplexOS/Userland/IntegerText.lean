import ComplexOS.Library.WrappedInts
import ComplexOS.Scheduler.NumberText

/-! # Integers in text

`itoa` and `parseInt` of the library for user programs. An array is given as its bytes, and a
read or a store outside of it answers `none`.
-/
namespace ComplexOS
open ByteMemory WrappedInts Numerals

namespace CallerBuffer

def contents (b : CallerBuffer) : List UInt8 := (List.range b.bound).map b.bytes

variable {b : CallerBuffer} {cs : List UInt8}

theorem contents_getElem? (b : CallerBuffer) (i : ℕ) :
    b.contents[i]? = if i < b.bound then some (b.bytes i) else none := by
  unfold contents
  rw [List.getElem?_map]
  split_ifs with hi
  · rw [List.getElem?_range hi]
    rfl
  · rw [List.getElem?_eq_none (by rw [List.length_range]; omega)]
    rfl

theorem contents_place (h : cs.length ≤ b.bound) :
    ({ b with bytes := place b.bytes 0 cs } : CallerBuffer).contents = cs++b.contents.drop cs.length := by
  apply List.ext_getElem?
  intro i
  rw [contents_getElem?]
  dsimp only
  rw [place_apply,if_pos (Nat.zero_le i),Nat.sub_zero]
  by_cases hin : i < cs.length
  · rw [if_pos (by omega),List.getElem?_append_left hin,List.getElem?_eq_getElem hin,Option.getD_some]
  · have hi : cs.length+(i-cs.length) = i := by omega
    rw [List.getElem?_append_right (by omega),List.getElem?_eq_none (l := cs) (by omega),
      Option.getD_none,List.getElem?_drop,hi,contents_getElem?]

end CallerBuffer

namespace Libc
open CallerBuffer

def isDigit (c : UInt8) : Prop := 48 ≤ c ∧ c ≤ 57

instance : DecidablePred isDigit := fun c => inferInstanceAs (Decidable (48 ≤ c ∧ c ≤ 57))

/-! ### `itoa` -/

/-- The remainder is negative where the value is. -/
def charOf (remainder : ℤ) : UInt8 :=
  UInt8.ofInt (if remainder < 10 then remainder+48 else remainder+65-10)

/-- The first loop, with `p` and `digits` behind it. -/
def writeDigits (base : ℤ) : ℕ → ℤ → ℤ → ℕ → CallerBuffer → Option (ℤ × ℕ × CallerBuffer)
  | 0, _, _, _, _ => none
  | n+1, value, p, digits, b => (b.store p (charOf (value.tmod base))).bind (fun b =>
    if value.tdiv base = 0 then some (p+1,digits+1,b)
    else writeDigits base n (value.tdiv base) (p+1) (digits+1) b)

/-- `itoa` behind the sign. The digits are turned around without a `-` in front of them. -/
def writeNumber (value base p : ℤ) (digits : ℕ) (b : CallerBuffer) : Option (ℕ × CallerBuffer) :=
  (writeDigits base 32 value p digits b).bind (fun (p,digits,b) =>
    (b.store p 0).bind (fun b => (b.load 0).bind (fun c =>
      (swapDigits 32 (if c = 45 then 1 else 0) (p-1) b).map (fun b => (digits,b)))))

def itoa (value base : ℤ) (b : CallerBuffer) : Option (ℕ × CallerBuffer) :=
  if value < 0 ∧ base = 10 then (b.store 0 45).bind (writeNumber (wrap (-value)) base 1 1)
  else writeNumber value base 0 0 b

/-! ### `parseInt` -/

/-- The loop, and the last line. -/
def parseDigits (sign : ℤ) : List UInt8 → ℤ → ℕ → Option (ℤ × ℕ)
  | [], _, _ => none
  | c::string, value, digits =>
    if isDigit c then
      parseDigits sign string (wrap (wrap (value*10)+(c.toNat-48))) (digits+1)
    else some (wrap (value*sign),digits)

/-- What is stored in `*value`, and the number of characters. -/
def parseInt : List UInt8 → Option (ℤ × ℕ)
  | [] => none
  | c::string =>
    if c = 45 then
      match string with
      | [] => none
      | d::_ => if isDigit d then parseDigits (-1) string 0 1 else some (0,0)
    else parseDigits 1 (c::string) 0 0

/-! ### What is written -/

def intText (v : ℤ) : List UInt8 := (if v < 0 then [45] else [])++uintToBase v.natAbs 10

def SignedDigits (text : List UInt8) : Prop :=
  ∃ ds, (text = ds ∨ text = 45::ds) ∧ ds ≠ [] ∧ ∀ c ∈ ds, isDigit c

/-- In every array of 12 bytes `itoa` writes such a text and its NUL, and leaves the rest; and
`parseInt` gets the value back. -/
def RoundTrip (v : ℤ) : Prop := ∀ b : CallerBuffer, 12 ≤ b.bound → ∃ text b',
  itoa v 10 b = some (text.length,b') ∧
  b'.contents = text++0::b.contents.drop (text.length+1) ∧ text.length+1 ≤ 12 ∧
  SignedDigits text ∧ parseInt b'.contents = some (v,text.length)

variable {b b' : CallerBuffer} {value v : ℤ} {n k lo digits : ℕ} {c : UInt8} {cs text rest : List UInt8}

theorem charOf_digit (h : n < 10) : charOf (n:ℤ) = digit n := by
  interval_cases n <;> rfl

/-- Of a value that is not negative the loop writes what `uintToBase` writes. -/
theorem writeDigits_natCast : writeDigits 10 n (k:ℤ) value digits b =
    CallerBuffer.writeDigits 10 n k value digits b := by
  induction n generalizing k value digits b with
  | zero => rfl
  | succ n ih =>
    have hmod : (k:ℤ).tmod 10 = ((k % 10 : ℕ):ℤ) := rfl
    have hdiv : (k:ℤ).tdiv 10 = ((k / 10 : ℕ):ℤ) := rfl
    rw [writeDigits,CallerBuffer.writeDigits,hmod,hdiv,charOf_digit (Nat.mod_lt k (by decide))]
    congr 1
    funext b
    rw [ih]
    exact if_congr Int.natCast_eq_zero rfl rfl

theorem isDigit_digit (h : n < 10) : isDigit (digit n) := by
  interval_cases n <;> decide

theorem uintToBase_isDigit : ∀ c ∈ uintToBase n 10, isDigit c := by
  intro c hc
  rw [uintToBase_numeral] at hc
  obtain ⟨d,hd,rfl⟩ := List.mem_map.mp hc
  exact isDigit_digit ((numeral_standard (by decide)).lt d hd)

theorem lastFirst_eq : (lastFirst n 10).length = (uintToBase n 10).length ∧
    ∃ d < 10, (lastFirst n 10).head? = some (digit d) := by
  refine ⟨lastFirst_length,n % 10,Nat.mod_lt n (by decide),?_⟩
  rw [lastFirst_step (by decide)]
  rfl

theorem digit_ne_minus (h : n < 10) : digit n ≠ 45 := by
  interval_cases n <;> decide

theorem uintToBase_ten_length (h : n ≤ 2^31) : 0 < (uintToBase n 10).length ∧
    (uintToBase n 10).length ≤ 10 := by
  rw [uintToBase_length]
  refine ⟨List.length_pos_iff.mpr (numeral_standard (by decide)).ne_nil,?_⟩
  exact numeral_length_le (by decide) (by decide) (by omega)

/-- Whether the number has been given a `-` is read off the first byte. -/
theorem writeNumber_eq (hn : n ≤ 2^31) (hlo : lo ≤ 1) (hsign : lo = 1 → b.bytes 0 = 45)
    (hroom : lo+(uintToBase n 10).length+1 ≤ b.bound) : writeNumber (n:ℤ) 10 lo digits b =
      some (digits+(uintToBase n 10).length,
        { b with bytes := place b.bytes lo (uintToBase n 10++[0]) }) := by
  obtain ⟨hpos,hten⟩ := uintToBase_ten_length hn
  obtain ⟨hlen,d,hd,hhead⟩ := lastFirst_eq (n := n)
  have hne : lastFirst n 10 ≠ [] := lastFirst_ne_nil (by decide)
  have hlast : ((lo+(lastFirst n 10).length : ℕ) : ℤ)-1 = ((lo+(lastFirst n 10).length-1 : ℕ) : ℤ) := by
    omega
  have hbytes : Function.update (place b.bytes lo (lastFirst n 10)) (lo+(lastFirst n 10).length) 0 =
      place b.bytes lo (lastFirst n 10++[0]) := by
    rw [place_append]
    rfl
  have hfirst : (if place b.bytes lo (lastFirst n 10++[0]) 0 = 45 then (1:ℤ) else 0) = lo := by
    obtain rfl | rfl : lo = 0 ∨ lo = 1 := by omega
    · have hzero : place b.bytes 0 (lastFirst n 10++[0]) 0 = digit d := by
        rw [place_apply,if_pos le_rfl,Nat.sub_zero,← List.head?_eq_getElem?,List.head?_append,hhead]
        rfl
      rw [hzero,if_neg (digit_ne_minus hd)]
      rfl
    · have hzero : place b.bytes 1 (lastFirst n 10++[0]) 0 = 45 := by
        rw [place_apply,if_neg (by decide),hsign rfl]
      rw [hzero,if_pos rfl]
      rfl
  unfold writeNumber
  rw [writeDigits_natCast,writeDigits_eq (by decide) (by omega) (by omega),Option.bind_some]
  dsimp only
  rw [store_at (by change _ < b.bound; omega),Option.bind_some]
  dsimp only
  have hload : ({ b with bytes := place b.bytes lo (lastFirst n 10++[0]) } : CallerBuffer).load 0 =
      some (place b.bytes lo (lastFirst n 10++[0]) 0) :=
    if_pos ⟨le_rfl,by change (0:ℤ) < b.bound; omega⟩
  rw [hbytes,hload,Option.bind_some,hfirst,hlast,
    swapDigits_eq (by change _ < b.bound; omega) (by omega) (by omega),Option.map_some,hlen]
  dsimp only
  rw [← hlen,flipped_place hne,lastFirst_reverse]

/-! ### The text of an `int` -/

/-- The cases of the sign. -/
theorem exists_magnitude (v : ℤ) : (∃ n : ℕ, v = n) ∨ ∃ n : ℕ, 0 < n ∧ v = -(n:ℤ) := by
  obtain h | h := Int.lt_or_le v 0
  · exact Or.inr ⟨v.natAbs,by omega,by omega⟩
  · exact Or.inl ⟨v.natAbs,by omega⟩

theorem intText_natCast (n : ℕ) : intText (n:ℤ) = uintToBase n 10 := by
  unfold intText
  rw [if_neg (by omega),Int.natAbs_natCast]
  rfl

theorem intText_neg (hn : 0 < n) : intText (-(n:ℤ)) = 45::uintToBase n 10 := by
  unfold intText
  rw [if_pos (by omega),Int.natAbs_neg,Int.natAbs_natCast]
  rfl

theorem intText_length (hlo : -2^31 < v) (hhi : v < 2^31) : (intText v).length ≤ 11 := by
  obtain ⟨-,hten⟩ := uintToBase_ten_length (n := v.natAbs) (by omega)
  unfold intText
  rw [List.length_append]
  split_ifs
  · rw [List.length_singleton]
    omega
  · rw [List.length_nil]
    omega

theorem intText_signedDigits : SignedDigits (intText v) := by
  refine ⟨uintToBase v.natAbs 10,?_,?_,uintToBase_isDigit⟩
  · unfold intText
    split_ifs
    · exact Or.inr rfl
    · exact Or.inl rfl
  · rw [uintToBase_numeral]
    exact fun h => (numeral_standard (by decide)).ne_nil (List.map_eq_nil_iff.mp h)

/-- Every `int` but the smallest one is written in this form. -/
theorem itoa_eq (hlo : -2^31 < v) (hhi : v < 2^31) (hb : (intText v).length+1 ≤ b.bound) :
    itoa v 10 b = some ((intText v).length,{ b with bytes := place b.bytes 0 (intText v++[0]) }) := by
  unfold itoa
  obtain ⟨n,rfl⟩ | ⟨n,hn,rfl⟩ := exists_magnitude v
  · rw [intText_natCast] at hb ⊢
    rw [if_neg (by omega)]
    have h : writeNumber (n:ℤ) 10 (0:ℕ) 0 b = _ :=
      writeNumber_eq (by omega) (by decide) (fun h => absurd h (by decide)) (by omega)
    rw [Nat.zero_add] at h
    exact h
  · rw [intText_neg hn] at hb ⊢
    rw [List.length_cons] at hb
    have hwrap : wrap (-(-(n:ℤ))) = n := by
      rw [neg_neg]
      exact Fits.wrap_eq ⟨by omega,by omega⟩
    have hstore : b.store 0 45 = some { b with bytes := Function.update b.bytes 0 45 } :=
      if_pos ⟨le_rfl,by omega⟩
    rw [if_pos ⟨by omega,rfl⟩,hstore,Option.bind_some,hwrap]
    have h : writeNumber (n:ℤ) 10 (1:ℕ) 1 { b with bytes := Function.update b.bytes 0 45 } = _ :=
      writeNumber_eq (by omega) le_rfl (fun _ => by exact Function.update_self 0 45 b.bytes)
        (by change 1+_+1 ≤ b.bound; omega)
    rw [List.length_cons,Nat.add_comm]
    exact h

/-! ### Reading it back -/

theorem le_foldl (ds : List ℕ) (n : ℕ) : n ≤ ds.foldl (fun n d => n*10+d) n := by
  induction ds generalizing n with
  | nil => exact le_rfl
  | cons d ds ih => exact le_trans (by omega) (ih (n*10+d))

/-- Digits whose value fits, up to a character that is none. -/
theorem parseDigits_eq {sign : ℤ} {ds : List ℕ} {acc : ℕ} (hds : ∀ d ∈ ds, d < 10)
    (hfit : ds.foldl (fun n d => n*10+d) acc < 2^31) (hc : ¬ isDigit c) :
    parseDigits sign (ds.map digit++c::rest) acc digits =
      some (wrap ((ds.foldl (fun n d => n*10+d) acc : ℕ)*sign),digits+ds.length) := by
  induction ds generalizing acc digits with
  | nil => exact if_neg hc
  | cons d ds ih =>
    have hd : d < 10 := hds d List.mem_cons_self
    have hle := le_foldl ds (acc*10+d)
    rw [List.foldl_cons] at hfit ⊢
    have hmul : wrap ((acc:ℤ)*10) = ((acc*10 : ℕ):ℤ) := by
      rw [Nat.cast_mul]
      exact Fits.wrap_eq ⟨by omega,by omega⟩
    have hval : ((digit d).toNat:ℤ)-48 = d := by
      rw [digit_toNat (by omega),if_pos hd]
      omega
    have hadd : wrap (((acc*10 : ℕ):ℤ)+d) = ((acc*10+d : ℕ):ℤ) := by
      rw [← Nat.cast_add]
      exact Fits.wrap_eq ⟨by omega,by omega⟩
    rw [List.map_cons,List.cons_append,parseDigits,if_pos (isDigit_digit hd),hmul,hval,hadd,
      ih (fun d hd => hds d (List.mem_cons_of_mem _ hd)) hfit,List.length_cons,Nat.add_assoc,
      Nat.add_comm 1]

theorem parseDigits_uintToBase {sign : ℤ} (hn : n < 2^31) (hsign : Fits (n*sign)) (hc : ¬ isDigit c) :
    parseDigits sign (uintToBase n 10++c::rest) 0 digits =
      some (n*sign,digits+(uintToBase n 10).length) := by
  have hvalue : (numeral 10 n).foldl (fun n d => n*10+d) 0 = n := value_numeral 10 n
  have h : parseDigits sign ((numeral 10 n).map digit++c::rest) (0:ℕ) digits = _ :=
    parseDigits_eq (numeral_standard (by decide)).lt (by rw [hvalue]; exact hn) hc
  rw [hvalue,hsign.wrap_eq] at h
  rwa [uintToBase_numeral,List.length_map]

theorem exists_uintToBase (n : ℕ) : ∃ d cs, uintToBase n 10 = digit d::cs ∧ d < 10 := by
  have hs := numeral_standard (n := n) (show 2 ≤ 10 by decide)
  rw [uintToBase_numeral]
  obtain ⟨d,ds,hd⟩ := List.exists_cons_of_ne_nil hs.ne_nil
  rw [hd]
  exact ⟨d,ds.map digit,rfl,hs.lt d (by rw [hd]; exact List.mem_cons_self)⟩

/-- The text of an `int` in front of a character that is no digit. -/
theorem parseInt_intText (hlo : -2^31 < v) (hhi : v < 2^31) (hc : ¬ isDigit c) :
    parseInt (intText v++c::rest) = some (v,(intText v).length) := by
  obtain ⟨n,rfl⟩ | ⟨n,hn,rfl⟩ := exists_magnitude v
  all_goals
    obtain ⟨d,cs,hd,hlt⟩ := exists_uintToBase n
  · have h : parseDigits 1 (uintToBase n 10++c::rest) 0 0 = _ :=
      parseDigits_uintToBase (by omega) ⟨by omega,by omega⟩ hc
    rw [mul_one,Nat.zero_add,hd,List.cons_append] at h
    rw [intText_natCast,hd,List.cons_append,parseInt.eq_def]
    dsimp only
    rw [if_neg (digit_ne_minus hlt)]
    exact h
  · have h : parseDigits (-1) (uintToBase n 10++c::rest) 0 1 = _ :=
      parseDigits_uintToBase (by omega) ⟨by omega,by omega⟩ hc
    rw [mul_neg_one,hd,List.cons_append] at h
    rw [intText_neg hn,hd,List.cons_append,List.cons_append,parseInt,if_pos rfl,if_pos (isDigit_digit hlt),h,List.length_cons,Nat.add_comm]
    rfl

/-! ### The round trip -/

theorem roundTrip_of_ne (hlo : -2^31 < v) (hhi : v < 2^31) : RoundTrip v := by
  intro b hb
  have hlen := intText_length hlo hhi
  have hcontents : ({ b with bytes := place b.bytes 0 (intText v++[0]) } : CallerBuffer).contents =
      intText v++0::b.contents.drop ((intText v).length+1) := by
    rw [contents_place (by rw [List.length_append,List.length_singleton]; omega),List.append_assoc,
      List.length_append,List.length_singleton]
    rfl
  refine ⟨intText v,_,itoa_eq hlo hhi (by omega),hcontents,by omega,intText_signedDigits,?_⟩
  rw [hcontents]
  exact parseInt_intText hlo hhi (by decide)

/-- The negative of the smallest `int` is itself, and its remainders are negative. -/
theorem roundTrip_min : ¬ RoundTrip (-2^31) := by
  intro h
  obtain ⟨text,b',hi,hc,-,-,hp⟩ := h ⟨12,fun _ => 0⟩ (by decide)
  have hi' : ∃ x ∈ itoa (-2^31) 10 ⟨12,fun _ => 0⟩, parseInt x.2.contents = some (0,0) ∧ x.1 = 11 := by
    decide +kernel
  obtain ⟨x,hx,hx0,hx1⟩ := hi'
  obtain rfl := Option.some.inj (hi.symm.trans hx)
  rw [hx0] at hp
  cases hp

/-- Every `int` but the smallest one is written and read back. -/
theorem decimal_roundTrip (hv : Fits v) : RoundTrip v ↔ v ≠ -2^31 := by
  obtain ⟨hlo,hhi⟩ := hv
  constructor
  · rintro h rfl
    exact roundTrip_min h
  · exact fun hne => roundTrip_of_ne (by omega) hhi

/-- The second smallest one. -/
theorem decimal_roundTrip_second : RoundTrip (-2^31+1) :=
  (decimal_roundTrip ⟨by decide,by decide⟩).mpr (by decide)

theorem not_decimal_roundTrip : ¬ ∀ v, Fits v → RoundTrip v :=
  fun h => roundTrip_min (h _ ⟨by decide,by decide⟩)

end Libc
end ComplexOS
