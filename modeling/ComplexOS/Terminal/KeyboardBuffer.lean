import ComplexOS.Library.CircularBuffer
import Mathlib.Data.UInt

/-! # The keyboard buffer

The keyboard part of `terminal.c`. A read or a write that is not inside the array is no step.
What is printed is left out, and so is the wait in front of a read: a reader that has been
waiting makes the last test when it is woken up.
-/
namespace ComplexOS

def bufferSize : UInt16 := 3000

/-- The indices into `kbBuffer`. They are `uint16_t`, so that the source's tests for a
negative index never hold and an index below `0` is `65535`. -/
structure Terminal where
  startIndex : UInt16
  endIndex : UInt16
  writeIndex : UInt16
  readIndex : UInt16
  size : UInt16
  deriving DecidableEq, Repr

namespace Terminal
variable (x : Terminal)

def after (i : UInt16) : UInt16 := if i+1 = bufferSize then 0 else i+1

/-- The cases of `writeBuffer`. -/
def backspace : Terminal :=
  if x.writeIndex ≠ x.startIndex then
    { x with writeIndex := x.writeIndex-1, endIndex := x.endIndex-1, size := x.size-1 }
  else x

def newLine : Terminal :=
  { x with
    endIndex := after x.endIndex
    writeIndex := after x.endIndex
    startIndex := after x.endIndex
    size := x.size+1 }

def char : Terminal :=
  if x.size < bufferSize-1 then
    { x with writeIndex := after x.writeIndex, endIndex := after x.endIndex, size := x.size+1 }
  else x

def keyboardLeft : Terminal :=
  if x.writeIndex ≠ x.startIndex then { x with writeIndex := x.writeIndex-1 } else x

def keyboardRight : Terminal :=
  if x.writeIndex ≠ x.endIndex then { x with writeIndex := after x.writeIndex } else x

/-- What `readBuffer` and `nonBlockRead` do up to their `bound`. -/
def take (bound : UInt16) : Terminal :=
  if x.readIndex < bound then { x with readIndex := after x.readIndex, size := x.size-1 } else x

/-- `resetBuffer` leaves `size` as it is. -/
def resetBuffer : Terminal :=
  { x with startIndex := 0, endIndex := 0, writeIndex := 0, readIndex := 0 }

end Terminal

/-- The characters are found by index, also behind the end of the array. -/
structure Keyboard where
  terminal : Terminal
  kbBuffer : ℕ → UInt8

/-- A loop that has not ended after so many rounds has been at every index and goes on. -/
def maxRounds : ℕ := 131072

namespace Keyboard
open Terminal

def load (i : UInt16) (b : ℕ → UInt8) : Option UInt8 :=
  if i < bufferSize then some (b i.toNat) else none

def store (i : UInt16) (ch : UInt8) (b : ℕ → UInt8) : Option (ℕ → UInt8) :=
  if i < bufferSize then some (Function.update b i.toNat ch) else none

def slideLeft (endIndex : UInt16) : ℕ → UInt16 → (ℕ → UInt8) → Option (ℕ → UInt8)
  | 0, _, _ => none
  | n+1, i, b => if i = endIndex then some b
    else (load (after i) b).bind (fun ch => (store i ch b).bind (fun b =>
      slideLeft endIndex n (after i) b))

def slideRight (writeIndex : UInt16) : ℕ → UInt16 → (ℕ → UInt8) → Option (ℕ → UInt8)
  | 0, _, _ => none
  | n+1, i, b => (load (i-1) b).bind (fun ch => (store i ch b).bind (fun b =>
    if i-1 ≠ writeIndex then slideRight writeIndex n (i-1) b else some b))

variable (s : Keyboard)

def shiftLeft : Option (ℕ → UInt8) :=
  if s.terminal.writeIndex ≠ s.terminal.startIndex then
    slideLeft s.terminal.endIndex maxRounds (s.terminal.writeIndex-1) s.kbBuffer
  else some s.kbBuffer

def shiftRight : Option (ℕ → UInt8) :=
  if s.terminal.writeIndex ≠ s.terminal.endIndex then
    slideRight s.terminal.writeIndex maxRounds s.terminal.endIndex s.kbBuffer
  else some s.kbBuffer

def writeBuffer (ch : UInt8) : Option Keyboard :=
  if ch = 8 then s.shiftLeft.map (fun b => ⟨s.terminal.backspace,b⟩)
  else if ch = 10 then
    (store s.terminal.endIndex ch s.kbBuffer).map (fun b => ⟨s.terminal.newLine,b⟩)
  else if s.terminal.size < bufferSize-1 then
    (s.shiftRight.bind (store s.terminal.writeIndex ch)).map (fun b => ⟨s.terminal.char,b⟩)
  else some s

def readBuffer : Option (UInt8 × Keyboard) :=
  if s.terminal.readIndex < s.terminal.startIndex then
    (load s.terminal.readIndex s.kbBuffer).map (fun ch =>
      (ch,{ s with terminal := s.terminal.take s.terminal.startIndex }))
  else some (0,s)

def nonBlockRead : Option (UInt8 × Keyboard) :=
  if s.terminal.readIndex < s.terminal.writeIndex then
    (load s.terminal.readIndex s.kbBuffer).map (fun ch =>
      (ch,{ s with terminal := s.terminal.take s.terminal.writeIndex }))
  else some (0,s)

def keyboardLeft : Keyboard := { s with terminal := s.terminal.keyboardLeft }

def keyboardRight : Keyboard := { s with terminal := s.terminal.keyboardRight }

def resetBuffer : Keyboard := { s with terminal := s.terminal.resetBuffer }

def initial : Keyboard := ⟨⟨0,0,0,0,0⟩,fun _ => 0⟩

end Keyboard

/-! ### Positions -/

namespace Terminal

/-- The index of a position that counts all characters since the start. -/
def cell (k : ℕ) : UInt16 := UInt16.ofNat (k % 3000)

variable {j k : ℕ}

@[simp] theorem toNat_cell (k : ℕ) : (cell k).toNat = k % 3000 := by
  have hsize : UInt16.size = 65536 := rfl
  exact UInt16.toNat_ofNat_of_lt' (by omega)

theorem cell_inj : cell j = cell k ↔ j % 3000 = k % 3000 := by
  rw [← UInt16.toNat_inj,toNat_cell,toNat_cell]

theorem cell_lt : cell j < cell k ↔ j % 3000 < k % 3000 := by
  rw [UInt16.lt_iff_toNat_lt,toNat_cell,toNat_cell]

theorem cell_lt_bufferSize (k : ℕ) : cell k < bufferSize := by
  have hlt := Nat.mod_lt k (by omega : 3000 > 0)
  rw [UInt16.lt_iff_toNat_lt,toNat_cell]
  exact hlt

variable {i : UInt16}

theorem toNat_succ (h : i.toNat < 3000) : (i+1).toNat = i.toNat+1 := by
  rw [UInt16.toNat_add]
  exact Nat.mod_eq_of_lt (by simp; omega)

theorem toNat_pred (h : 0 < i.toNat) : (i-1).toNat = i.toNat-1 := by
  have hle : (1 : UInt16) ≤ i := UInt16.le_iff_toNat_le.mpr h
  exact UInt16.toNat_sub_of_le _ _ hle

theorem cell_ne_below (k : ℕ) : cell k ≠ 65535 := by
  intro he
  have hlt := Nat.mod_lt k (by omega : 3000 > 0)
  rw [← toNat_cell,he] at hlt
  exact absurd hlt (by decide)

theorem after_cell (k : ℕ) : after (cell k) = cell (k+1) := by
  have hone : (cell k+1).toNat = k % 3000+1 := by
    rw [toNat_succ (by rw [toNat_cell]; omega),toNat_cell]
  have hsize : bufferSize.toNat = 3000 := rfl
  unfold after
  split
  · rename_i h
    have hlast := congrArg UInt16.toNat h
    rw [hone,hsize] at hlast
    rw [← UInt16.toNat_inj,toNat_cell]
    simp
    omega
  · rename_i h
    have hlast : k % 3000+1 ≠ 3000 := by
      intro he
      apply h
      rw [← UInt16.toNat_inj,hone,he,hsize]
    rw [← UInt16.toNat_inj,hone,toNat_cell]
    omega

/-- Counting down is right as long as it does not go below `0`. -/
theorem cell_pred (h : k % 3000 ≠ 0) : cell k-1 = cell (k-1) := by
  rw [← UInt16.toNat_inj,toNat_pred (by rw [toNat_cell]; omega),toNat_cell,toNat_cell]
  omega

end Terminal

namespace Keyboard
open Terminal
variable {b : ℕ → UInt8} {n w e : ℕ}

theorem load_cell (k : ℕ) : load (cell k) b = some (b (k % 3000)) := by
  unfold load
  rw [if_pos (cell_lt_bufferSize k),toNat_cell]

theorem store_cell (k : ℕ) (ch : UInt8) :
    store (cell k) ch b = some (Function.update b (k % 3000) ch) := by
  unfold store
  rw [if_pos (cell_lt_bufferSize k),toNat_cell]

/-- The positions from `w` to `e` take what has been in the next ones. -/
theorem slideLeft_spec (hwe : w ≤ e) (hn : e-w < 3000) (hf : e-w < n) :
    ∃ b', slideLeft (cell e) n (cell w) b = some b' ∧
      (∀ i, w ≤ i → i < e → b' (i % 3000) = b ((i+1) % 3000)) ∧
        ∀ j, (∀ i, w ≤ i → i < e → j ≠ i % 3000) → b' j = b j := by
  induction n generalizing w b with
  | zero => omega
  | succ n ih =>
    unfold slideLeft
    by_cases he : w = e
    · subst he
      rw [if_pos rfl]
      exact ⟨b,rfl,fun i _ _ => by omega,fun _ _ => rfl⟩
    · have hne : cell w ≠ cell e := by
        rw [Ne,cell_inj]
        omega
      rw [if_neg hne,after_cell,load_cell,Option.bind_some,store_cell,Option.bind_some]
      obtain ⟨b',hb',hmove,hkeep⟩ := ih (b := Function.update b (w % 3000) (b ((w+1) % 3000)))
        (by omega : w+1 ≤ e) (by omega) (by omega)
      refine ⟨b',hb',fun i hi hie => ?_,fun j hj => ?_⟩
      · obtain rfl | hlt := Nat.eq_or_lt_of_le hi
        · rw [hkeep _ (fun i hi hie => by omega),Function.update_self]
        · rw [hmove i hlt hie,Function.update_of_ne (by omega)]
      · rw [hkeep j (fun i hi hie => hj i (by omega) hie),
          Function.update_of_ne (hj w le_rfl (by omega))]

/-- The positions behind `w` up to `e` take what has been in the ones before. -/
theorem slideRight_spec (hwe : w < e) (hn : e-w < 3000) (hlow : w % 3000 < e % 3000) (hf : e-w ≤ n) :
    ∃ b', slideRight (cell w) n (cell e) b = some b' ∧
      (∀ i, w ≤ i → i < e → b' ((i+1) % 3000) = b (i % 3000)) ∧
        ∀ j, (∀ i, w ≤ i → i < e → j ≠ (i+1) % 3000) → b' j = b j := by
  induction n generalizing e b with
  | zero => omega
  | succ n ih =>
    obtain ⟨d,rfl⟩ : ∃ d, e = d+1 := ⟨e-1,by omega⟩
    unfold slideRight
    rw [cell_pred (by omega),Nat.add_sub_cancel,load_cell,Option.bind_some,store_cell,
      Option.bind_some]
    by_cases hlast : d = w
    · subst hlast
      rw [if_neg (not_not.mpr rfl)]
      refine ⟨_,rfl,fun i hi hie => ?_,fun j hj => Function.update_of_ne (hj d le_rfl hwe) _ _⟩
      obtain rfl : i = d := by omega
      rw [Function.update_self]
    · have hne : cell d ≠ cell w := by
        rw [Ne,cell_inj]
        omega
      rw [if_pos hne]
      obtain ⟨b',hb',hmove,hkeep⟩ := ih (b := Function.update b ((d+1) % 3000) (b (d % 3000)))
        (by omega : w < d) (by omega) (by omega) (by omega)
      refine ⟨b',hb',fun i hi hie => ?_,fun j hj => ?_⟩
      · obtain rfl | hlt := Nat.eq_or_lt_of_le (Nat.le_of_lt_succ hie)
        · rw [hkeep _ (fun i hi hie => by omega),Function.update_self]
        · rw [hmove i hi hlt,Function.update_of_ne (by omega)]
      · rw [hkeep j (fun i hi hie => hj i hi (by omega)),
          Function.update_of_ne (hj d (by omega) (Nat.lt_succ_self d))]

variable {s : Keyboard}

/-- Something stands before the cursor at position `w`, and the line ends at `e`. -/
theorem shiftLeft_spec (hwrite : s.terminal.writeIndex = cell (w+1))
    (hend : s.terminal.endIndex = cell e) (hne : s.terminal.writeIndex ≠ s.terminal.startIndex)
    (hlow : (w+1) % 3000 ≠ 0) (hn : w ≤ e ∧ e-w < 3000) :
    ∃ b', s.shiftLeft = some b' ∧
      (∀ i, w ≤ i → i < e → b' (i % 3000) = s.kbBuffer ((i+1) % 3000)) ∧
        ∀ j, (∀ i, w ≤ i → i < e → j ≠ i % 3000) → b' j = s.kbBuffer j := by
  unfold shiftLeft
  rw [if_pos hne,hwrite,hend,cell_pred hlow,Nat.add_sub_cancel]
  exact slideLeft_spec hn.1 hn.2 (hn.2.trans (by decide))

theorem shiftRight_spec (hwrite : s.terminal.writeIndex = cell w)
    (hend : s.terminal.endIndex = cell e) (hn : w ≤ e ∧ e-w < 3000)
    (hlow : w % 3000 ≤ e % 3000) :
    ∃ b', s.shiftRight = some b' ∧
      (∀ i, w ≤ i → i < e → b' ((i+1) % 3000) = s.kbBuffer (i % 3000)) ∧
        ∀ j, (∀ i, w ≤ i → i < e → j ≠ (i+1) % 3000) → b' j = s.kbBuffer j := by
  unfold shiftRight
  by_cases he : w = e
  · subst he
    rw [if_neg (not_not.mpr (hwrite.trans hend.symm))]
    exact ⟨s.kbBuffer,rfl,fun i _ _ => by omega,fun _ _ => rfl⟩
  · have hne : s.terminal.writeIndex ≠ s.terminal.endIndex := by
      rw [hwrite,hend,Ne,cell_inj]
      omega
    rw [if_pos hne,hwrite,hend]
    exact slideRight_spec (by omega) hn.2 (by omega) (hn.2.le.trans (by decide))

/-- Behind the end of the array there is nothing to move. -/
theorem slideLeft_below (e n : ℕ) : slideLeft (cell e) n 65535 b = none := by
  cases n with
  | zero => rfl
  | succ n =>
    have hafter : after 65535 = cell 0 := by decide
    have hstore : ∀ ch, store 65535 ch b = none := fun _ => rfl
    unfold slideLeft
    rw [if_neg (cell_ne_below e).symm,hafter,load_cell,Option.bind_some,hstore,Option.bind_none]

/-- A tail that begins behind its own end is followed down to index `0` and on. -/
theorem slideRight_behind {w : UInt16} (h : cell e < w) : slideRight w n (cell e) b = none := by
  induction n generalizing e b with
  | zero => rfl
  | succ n ih =>
    unfold slideRight
    by_cases hzero : e % 3000 = 0
    · have hbelow : cell e-1 = 65535 := by
        unfold cell
        rw [hzero]
        decide
      have hload : load 65535 b = none := rfl
      rw [hbelow,hload,Option.bind_none]
    · have hlt : cell (e-1) < w := by
        rw [UInt16.lt_iff_toNat_lt,toNat_cell] at h ⊢
        omega
      rw [cell_pred hzero,load_cell,Option.bind_some,store_cell,Option.bind_some,if_pos (UInt16.ne_of_lt hlt)]
      exact ih hlt

theorem slideRight_below (h : e % 3000 < w % 3000) : slideRight (cell w) n (cell e) b = none :=
  slideRight_behind (cell_lt.mpr h)

end Keyboard
end ComplexOS
