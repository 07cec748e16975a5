import Mathlib.Data.List.Basic
import Mathlib.Algebra.Ring.Nat

/-! # Byte memory

A memory is a function on addresses. Byte lists lie in it from an address on, and are written
to it one behind the other. Words of 32 bits have the low byte first.
-/
namespace ComplexOS.ByteMemory
variable {α : Type*}

def Placed (m : ℕ → α) (a : ℕ) (bs : List α) : Prop := ∀ k b, bs[k]? = some b → m (a+k) = b

def place : (ℕ → α) → ℕ → List α → ℕ → α
  | m, _, [] => m
  | m, a, b::bs => place (Function.update m a b) (a+1) bs

def Within (a : ℕ) (bs : List α) (x : ℕ) : Prop := a ≤ x ∧ x < a+bs.length

variable {m m' : ℕ → α} {a x k : ℕ} {b : α} {bs cs : List α}

theorem placed_nil : Placed m a [] := by
  intro k b h
  cases h

theorem placed_cons : Placed m a (b::bs) ↔ m a = b ∧ Placed m (a+1) bs := by
  constructor
  · refine fun h => ⟨h 0 b rfl,fun k c hc => ?_⟩
    rw [Nat.add_assoc,Nat.add_comm 1 k]
    exact h (k+1) c hc
  · rintro ⟨hb,h⟩ k c hc
    cases k with
    | zero =>
      cases hc
      exact hb
    | succ k =>
      rw [Nat.add_comm k 1,← Nat.add_assoc]
      exact h k c hc

theorem placed_append : Placed m a (bs++cs) ↔ Placed m a bs ∧ Placed m (a+bs.length) cs := by
  induction bs generalizing a with
  | nil => simp [placed_nil]
  | cons b bs ih =>
    rw [List.cons_append,placed_cons,placed_cons,ih,and_assoc,List.length_cons,Nat.add_assoc,
      Nat.add_comm 1 bs.length]

/-- What lies in memory stays there under writes elsewhere. -/
theorem Placed.congr (h : Placed m a bs) (hm : ∀ x, Within a bs x → m' x = m x) : Placed m' a bs := by
  intro k b hb
  obtain ⟨hk,-⟩ := List.getElem?_eq_some_iff.mp hb
  rw [hm (a+k) ⟨Nat.le_add_right a k,by omega⟩]
  exact h k b hb

theorem Within.exists_getElem? (h : Within a bs x) : ∃ k b, x = a+k ∧ bs[k]? = some b := by
  obtain ⟨hle,hlt⟩ := h
  have hk : x-a < bs.length := by omega
  exact ⟨x-a,bs[x-a],by omega,List.getElem?_eq_getElem hk⟩

theorem place_append : place m a (bs++cs) = place (place m a bs) (a+bs.length) cs := by
  induction bs generalizing m a with
  | nil => rfl
  | cons b bs ih =>
    rw [List.cons_append,place,place,ih,List.length_cons,Nat.add_assoc,Nat.add_comm 1 bs.length]

theorem place_outside (h : ¬ Within a bs x) : place m a bs x = m x := by
  induction bs generalizing m a with
  | nil => rfl
  | cons b bs ih =>
    unfold Within at h ih
    rw [List.length_cons] at h
    have hne : x ≠ a := by omega
    rw [place,ih (by omega),Function.update_of_ne hne]

theorem placed_place : Placed (place m a bs) a bs := by
  induction bs generalizing m a with
  | nil => exact placed_nil
  | cons b bs ih =>
    refine placed_cons.mpr ⟨?_,ih⟩
    have hout : ¬ Within (a+1) bs a := fun hw => by
      have hle := hw.1
      omega
    rw [place,place_outside hout,Function.update_self]

theorem place_apply : place m a bs x = if a ≤ x then (bs[x-a]?).getD (m x) else m x := by
  by_cases hw : Within a bs x
  · obtain ⟨k,b,rfl,hb⟩ := hw.exists_getElem?
    rw [if_pos (Nat.le_add_right a k),Nat.add_sub_cancel_left,hb,Option.getD_some]
    exact placed_place k b hb
  · rw [place_outside hw]
    split_ifs with hle
    · have hnone : bs[x-a]? = none := by
        apply List.getElem?_eq_none
        unfold Within at hw
        omega
      rw [hnone,Option.getD_none]
    · rfl

/-! ### Words -/

def wordBytes (n : ℕ) : List UInt8 :=
  [UInt8.ofNat n,UInt8.ofNat (n/256),UInt8.ofNat (n/65536),UInt8.ofNat (n/16777216)]

def readWord (m : ℕ → UInt8) (a : ℕ) : ℕ :=
  (m a).toNat+256*(m (a+1)).toNat+65536*(m (a+2)).toNat+16777216*(m (a+3)).toNat

theorem readWord_placed {m : ℕ → UInt8} {n : ℕ} (h : Placed m a (wordBytes n)) (hn : n < 2^32) :
    readWord m a = n := by
  have h0 := h 0 _ rfl
  have h1 := h 1 _ rfl
  have h2 := h 2 _ rfl
  have h3 := h 3 _ rfl
  unfold readWord
  rw [Nat.add_zero] at h0
  rw [h0,h1,h2,h3]
  simp only [UInt8.toNat_ofNat']
  omega

/-! ### Copies from the first byte on -/

/-- Where byte `i` of a forward copy from `s` to `d` comes from. If the destination begins
inside the source, the bytes before it come again and again. -/
def origin (d s i : ℕ) : ℕ := if s < d then s+i % (d-s) else s+i

def copied (m : ℕ → α) (d s n : ℕ) : ℕ → α :=
  fun x => if d ≤ x ∧ x < d+n then m (origin d s (x-d)) else m x

variable {d s n : ℕ}

theorem origin_zero : origin d s 0 = s := by
  unfold origin
  split <;> simp

/-- Copies to the left and copies over more than their length are plain. -/
theorem origin_eq (h : d ≤ s ∨ s+k < d) : origin d s k = s+k := by
  unfold origin
  split_ifs with hlt
  · rw [Nat.mod_eq_of_lt (by omega)]
  · rfl

theorem origin_back (hlt : s < d) (hle : d ≤ s+k) : origin d s (s+k-d) = origin d s k := by
  have hsub : s+k-d = k-(d-s) := by omega
  rw [origin,if_pos hlt,origin,if_pos hlt,hsub,← Nat.mod_eq_sub_mod (by omega)]

theorem copied_zero : copied m d s 0 = m := by
  funext x
  exact if_neg (by omega)

theorem copied_at (h : k < n) : copied m d s n (d+k) = m (origin d s k) := by
  rw [copied,if_pos (by omega),Nat.add_sub_cancel_left]

/-- The next byte to be read is one of the source as it was, also if the copy has
already gone over its place. -/
theorem copied_read (hle : n ≤ k) (h : s < d → k < n+(d-s)) :
    copied m d s n (s+k) = m (origin d s k) := by
  unfold copied
  split_ifs with hin
  · rw [origin_back (by omega) hin.1]
  · rw [origin_eq (by omega)]

theorem copied_succ :
    Function.update (copied m d s n) (d+n) (m (origin d s n)) = copied m d s (n+1) := by
  funext x
  by_cases hx : x = d+n
  · rw [hx,Function.update_self,copied_at (Nat.lt_succ_self n)]
  · rw [Function.update_of_ne hx]
    unfold copied
    exact if_congr (by omega) rfl rfl

end ComplexOS.ByteMemory
