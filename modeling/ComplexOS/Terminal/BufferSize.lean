import ComplexOS.Library.Runs
import ComplexOS.Terminal.KeyboardBuffer

/-! # The size that is kept beside the indices

All the calls that move an index of the keyboard buffer, the raw reads and the reset
included. `size` is the number of characters from `readIndex` to `endIndex` as long as
nothing is deleted that a raw read has taken, nothing is counted down from `0`, no line is
committed on a full buffer, and no buffer is reset that holds something.
-/
namespace ComplexOS

inductive KeyCall
  | writeBuffer (ch : UInt8)
  | readBuffer
  | nonBlockRead
  | keyboardLeft
  | keyboardRight
  | resetBuffer
  deriving DecidableEq, Repr

namespace Keyboard
open CircularBuffer Terminal

def step (k : Keyboard) : KeyCall → Option Keyboard
  | .writeBuffer ch => k.writeBuffer ch
  | .readBuffer => k.readBuffer.map Prod.snd
  | .nonBlockRead => k.nonBlockRead.map Prod.snd
  | .keyboardLeft => some k.keyboardLeft
  | .keyboardRight => some k.keyboardRight
  | .resetBuffer => some k.resetBuffer

/-- `size` is the number of characters stored and not yet read, and no more than
`BUFFER_SIZE-1`. -/
def Counted (k : Keyboard) : Prop :=
  (k.terminal.size.toNat:ℤ) =
    ((k.terminal.endIndex.toNat:ℤ)-k.terminal.readIndex.toNat) % 3000 ∧
  k.terminal.size ≤ bufferSize-1

/-- A deletion has a character before the cursor inside the array, something unread, and does
not take `endIndex` below `0`; a line is committed with room left; any other character goes
into a tail that does not go over the end of the array. -/
def Writable (k : Keyboard) (ch : UInt8) : Prop :=
  if ch = 8 then k.terminal.writeIndex ≠ k.terminal.startIndex →
    k.terminal.writeIndex-1 < bufferSize ∧ k.terminal.endIndex ≠ 0 ∧ k.terminal.size ≠ 0
  else if ch = 10 then k.terminal.size < bufferSize-1
  else k.terminal.size < bufferSize-1 → k.terminal.writeIndex ≤ k.terminal.endIndex

/-- A read that takes a character finds the count above `0`, a reset finds it at `0`. -/
def Keeps (k : Keyboard) : KeyCall → Prop
  | .writeBuffer ch => k.Writable ch
  | .readBuffer => k.terminal.readIndex < k.terminal.startIndex → k.terminal.size ≠ 0
  | .nonBlockRead => k.terminal.readIndex < k.terminal.writeIndex → k.terminal.size ≠ 0
  | .resetBuffer => k.terminal.size = 0
  | _ => True

/-- All indices but `writeIndex`, which steps to the left may take below `0`, are inside. -/
structure Indexed (k : Keyboard) : Prop where
  counted : k.Counted
  startIndex : k.terminal.startIndex.toNat < 3000
  endIndex : k.terminal.endIndex.toNat < 3000
  readIndex : k.terminal.readIndex.toNat < 3000

variable {k k' : Keyboard} {i j : UInt16} {b : ℕ → UInt8} {c : UInt8}

theorem cell_toNat (h : i.toNat < 3000) : cell i.toNat = i := by
  rw [← UInt16.toNat_inj,toNat_cell,Nat.mod_eq_of_lt h]

theorem toNat_after (h : i.toNat < 3000) : (after i).toNat = (i.toNat+1) % 3000 := by
  rw [← cell_toNat h,after_cell,toNat_cell,toNat_cell,Nat.mod_eq_of_lt h]

theorem lt_bufferSize : i < bufferSize ↔ i.toNat < 3000 := by
  rw [UInt16.lt_iff_toNat_lt]
  exact Iff.rfl

theorem lt_room : i < bufferSize-1 ↔ i.toNat < 2999 := by
  rw [UInt16.lt_iff_toNat_lt]
  exact Iff.rfl

theorem le_room : i ≤ bufferSize-1 ↔ i.toNat ≤ 2999 := by
  rw [UInt16.le_iff_toNat_le]
  exact Iff.rfl

theorem ne_zero : i ≠ 0 ↔ i.toNat ≠ 0 := by
  rw [Ne,← UInt16.toNat_inj]
  exact Iff.rfl

theorem toNat_sub_one (i : UInt16) : (i-1).toNat = (i.toNat+65535) % 65536 := by
  rw [UInt16.toNat_sub]
  simp
  omega

theorem toNat_add_one (i : UInt16) : (i+1).toNat = (i.toNat+1) % 65536 := by
  rw [UInt16.toNat_add]
  simp

/-! ### Which calls stay in the array -/

theorem store_isSome : (store i c b).isSome ↔ i.toNat < 3000 := by
  unfold store
  split
  · rename_i h
    simpa using lt_bufferSize.mp h
  · rename_i h
    simpa using mt lt_bufferSize.mpr h

theorem load_isSome : (load i b).isSome ↔ i.toNat < 3000 := by
  unfold load
  split
  · rename_i h
    simpa using lt_bufferSize.mp h
  · rename_i h
    simpa using mt lt_bufferSize.mpr h

/-- From any cell of the array the slide ends at the end of the line. -/
theorem slideLeft_isSome (he : j.toNat < 3000) :
    (slideLeft j maxRounds i b).isSome ↔ i.toNat < 3000 := by
  constructor
  · intro h
    by_contra hi
    have hne : i ≠ j := fun hij => hi (hij ▸ he)
    have hstore : ∀ ch, store i ch b = none := fun ch =>
      Option.not_isSome_iff_eq_none.mp (mt store_isSome.mp hi)
    rw [maxRounds,slideLeft,if_neg hne] at h
    simp [hstore] at h
  · intro hi
    let e := i.toNat+(j.toNat+3000-i.toNat) % 3000
    have hend : cell e = j := by
      rw [← UInt16.toNat_inj,toNat_cell]
      omega
    have hlt := Nat.mod_lt (j.toNat+3000-i.toNat) (by omega : 3000 > 0)
    obtain ⟨b',hb',-⟩ := slideLeft_spec (b := b) (w := i.toNat) (e := e) (n := maxRounds)
      (by omega) (by omega) (by rw [maxRounds]; omega)
    rw [hend,cell_toNat hi] at hb'
    rw [hb']
    rfl

/-- A tail can be moved up if it does not go over the end of the array. -/
theorem shiftRight_isSome (he : k.terminal.endIndex.toNat < 3000) :
    k.shiftRight.isSome ↔ k.terminal.writeIndex ≤ k.terminal.endIndex := by
  rw [UInt16.le_iff_toNat_le]
  constructor
  · intro h
    by_contra hlt
    have hne : k.terminal.writeIndex ≠ k.terminal.endIndex := fun heq => hlt (heq ▸ le_rfl)
    have hbehind : cell k.terminal.endIndex.toNat < k.terminal.writeIndex := by
      rw [cell_toNat he,UInt16.lt_iff_toNat_lt]
      omega
    have hnone := slideRight_behind (b := k.kbBuffer) (n := maxRounds) hbehind
    rw [cell_toNat he] at hnone
    rw [shiftRight,if_pos hne,hnone] at h
    cases h
  · intro hle
    have hw : k.terminal.writeIndex.toNat < 3000 := by omega
    obtain ⟨b',hb',-⟩ := shiftRight_spec (cell_toNat hw).symm (cell_toNat he).symm
      ⟨hle,by omega⟩ (by omega)
    rw [hb']
    rfl

/-! ### What each call does to the count -/

theorem Indexed.counted_backspace (h : k.Indexed)
    (hw : k.terminal.writeIndex ≠ k.terminal.startIndex) :
    Counted ⟨k.terminal.backspace,b⟩ ↔ k.terminal.endIndex ≠ 0 ∧ k.terminal.size ≠ 0 := by
  obtain ⟨⟨hsize,hmax⟩,-,hend,hread⟩ := h
  rw [le_room] at hmax
  simp only [Counted,Terminal.backspace,if_pos hw,toNat_sub_one,le_room,ne_zero]
  omega

theorem Indexed.counted_newLine (h : k.Indexed) :
    Counted ⟨k.terminal.newLine,b⟩ ↔ k.terminal.size < bufferSize-1 := by
  obtain ⟨⟨hsize,hmax⟩,-,hend,hread⟩ := h
  rw [le_room] at hmax
  simp only [Counted,Terminal.newLine,toNat_add_one,toNat_after hend,le_room,lt_room]
  omega

theorem Indexed.counted_char (h : k.Indexed) (hroom : k.terminal.size < bufferSize-1) :
    Counted ⟨k.terminal.char,b⟩ := by
  obtain ⟨⟨hsize,hmax⟩,-,hend,hread⟩ := h
  have hlt := lt_room.mp hroom
  simp only [Counted,Terminal.char,if_pos hroom,toNat_add_one,toNat_after hend,le_room]
  omega

theorem Indexed.counted_take (h : k.Indexed) {bound : UInt16}
    (hlt : k.terminal.readIndex < bound) :
    Counted ⟨k.terminal.take bound,b⟩ ↔ k.terminal.size ≠ 0 := by
  obtain ⟨⟨hsize,hmax⟩,-,hend,hread⟩ := h
  rw [le_room] at hmax
  simp only [Counted,Terminal.take,if_pos hlt,toNat_sub_one,toNat_after hread,le_room,ne_zero]
  omega

theorem Indexed.counted_resetBuffer (h : k.Indexed) :
    Counted k.resetBuffer ↔ k.terminal.size = 0 := by
  obtain ⟨⟨-,hmax⟩,-,-,-⟩ := h
  rw [le_room] at hmax
  rw [← not_iff_not,← Ne.eq_def k.terminal.size,ne_zero]
  simp only [Counted,Keyboard.resetBuffer,Terminal.resetBuffer,le_room]
  simp
  omega

/-- Both reads take the next character up to their bound. -/
theorem Indexed.take (h : k.Indexed) {bound : UInt16} (hlt : k.terminal.readIndex < bound)
    (hsize : k.terminal.size ≠ 0) :
    Indexed { k with terminal := k.terminal.take bound } := by
  refine ⟨(h.counted_take hlt).mpr hsize,?_,?_,?_⟩
  · simpa [Terminal.take,hlt] using h.startIndex
  · simpa [Terminal.take,hlt] using h.endIndex
  · simp only [Terminal.take,if_pos hlt,toNat_after h.readIndex]
    exact Nat.mod_lt _ (by omega)

theorem Indexed.load (h : k.Indexed) :
    ∃ ch, load k.terminal.readIndex k.kbBuffer = some ch :=
  Option.isSome_iff_exists.mp (load_isSome.mpr h.readIndex)

/-! ### One call -/

theorem Indexed.deletion (h : k.Indexed)
    (hl : k.terminal.writeIndex ≠ k.terminal.startIndex →
      k.terminal.writeIndex-1 < bufferSize ∧ k.terminal.endIndex ≠ 0 ∧ k.terminal.size ≠ 0) :
    ∃ b, k.shiftLeft = some b ∧ Indexed ⟨k.terminal.backspace,b⟩ := by
  by_cases hw : k.terminal.writeIndex = k.terminal.startIndex
  · refine ⟨k.kbBuffer,by simp [shiftLeft,hw],?_⟩
    rw [Terminal.backspace,if_neg (not_not.mpr hw)]
    exact h
  · obtain ⟨hin,hend,hsize⟩ := hl hw
    obtain ⟨b,hb⟩ := Option.isSome_iff_exists.mp
      ((slideLeft_isSome (b := k.kbBuffer) h.endIndex).mpr (lt_bufferSize.mp hin))
    refine ⟨b,by rw [shiftLeft,if_pos hw,hb],(h.counted_backspace hw).mpr ⟨hend,hsize⟩,?_,?_,?_⟩
    · simpa [Terminal.backspace,hw] using h.startIndex
    · have hlt := h.endIndex
      simp only [Terminal.backspace,if_pos hw,toNat_sub_one]
      rw [ne_zero] at hend
      omega
    · simpa [Terminal.backspace,hw] using h.readIndex

theorem Indexed.commit (h : k.Indexed) (hl : k.terminal.size < bufferSize-1) (ch : UInt8) :
    ∃ b, store k.terminal.endIndex ch k.kbBuffer = some b ∧ Indexed ⟨k.terminal.newLine,b⟩ := by
  obtain ⟨b,hb⟩ := Option.isSome_iff_exists.mp
    ((store_isSome (c := ch) (b := k.kbBuffer)).mpr h.endIndex)
  have hafter : (after k.terminal.endIndex).toNat < 3000 := by
    rw [toNat_after h.endIndex]
    exact Nat.mod_lt _ (by omega)
  exact ⟨b,hb,h.counted_newLine.mpr hl,hafter,hafter,h.readIndex⟩

theorem Indexed.insertion (h : k.Indexed) (hroom : k.terminal.size < bufferSize-1)
    (hl : k.terminal.writeIndex ≤ k.terminal.endIndex) (ch : UInt8) :
    ∃ b, k.shiftRight.bind (store k.terminal.writeIndex ch) = some b ∧
      Indexed ⟨k.terminal.char,b⟩ := by
  obtain ⟨b₁,hb₁⟩ := Option.isSome_iff_exists.mp ((shiftRight_isSome h.endIndex).mpr hl)
  have hlt := h.endIndex
  rw [UInt16.le_iff_toNat_le] at hl
  obtain ⟨b,hb⟩ := Option.isSome_iff_exists.mp
    ((store_isSome (i := k.terminal.writeIndex) (c := ch) (b := b₁)).mpr (by omega))
  refine ⟨b,by rw [hb₁,Option.bind_some,hb],h.counted_char hroom,?_,?_,?_⟩
  · simpa [Terminal.char,hroom] using h.startIndex
  · simp only [Terminal.char,if_pos hroom,toNat_after hlt]
    exact Nat.mod_lt _ (by omega)
  · simpa [Terminal.char,hroom] using h.readIndex

/-- A call within its condition is possible and leaves the count right. -/
theorem Indexed.step {l : KeyCall} (h : k.Indexed) (hl : k.Keeps l) :
    ∃ k', k.step l = some k' ∧ k'.Indexed := by
  cases l with
  | writeBuffer ch =>
    have hl : k.Writable ch := hl
    unfold Writable at hl
    simp only [Keyboard.step,writeBuffer]
    split_ifs at hl ⊢ with hb hn hroom
    · obtain ⟨b,hb,hi⟩ := h.deletion hl
      exact ⟨_,by rw [hb]; rfl,hi⟩
    · obtain ⟨b,hb,hi⟩ := h.commit hl ch
      exact ⟨_,by rw [hb]; rfl,hi⟩
    · obtain ⟨b,hb,hi⟩ := h.insertion hroom (hl hroom) ch
      exact ⟨_,by rw [hb]; rfl,hi⟩
    · exact ⟨k,rfl,h⟩
  | readBuffer =>
    obtain ⟨ch,hch⟩ := h.load
    simp only [Keyboard.step,readBuffer,hch]
    split_ifs with hlt
    · exact ⟨_,rfl,h.take hlt (hl hlt)⟩
    · exact ⟨k,rfl,h⟩
  | nonBlockRead =>
    obtain ⟨ch,hch⟩ := h.load
    simp only [Keyboard.step,nonBlockRead,hch]
    split_ifs with hlt
    · exact ⟨_,rfl,h.take hlt (hl hlt)⟩
    · exact ⟨k,rfl,h⟩
  | keyboardLeft =>
    refine ⟨_,rfl,?_⟩
    unfold Keyboard.keyboardLeft Terminal.keyboardLeft
    split
    · exact ⟨h.counted,h.startIndex,h.endIndex,h.readIndex⟩
    · exact h
  | keyboardRight =>
    refine ⟨_,rfl,?_⟩
    unfold Keyboard.keyboardRight Terminal.keyboardRight
    split
    · exact ⟨h.counted,h.startIndex,h.endIndex,h.readIndex⟩
    · exact h
  | resetBuffer =>
    exact ⟨_,rfl,h.counted_resetBuffer.mpr hl,Nat.zero_lt_succ _,Nat.zero_lt_succ _,
      Nat.zero_lt_succ _⟩

/-- Any other call is not possible or leaves the count wrong. -/
theorem Indexed.keeps {l : KeyCall} (h : k.Indexed) (hs : k.step l = some k')
    (hc : k'.Counted) : k.Keeps l := by
  cases l with
  | writeBuffer ch =>
    change k.Writable ch
    unfold Writable
    simp only [Keyboard.step,writeBuffer] at hs
    split_ifs at hs ⊢ with hb hn hroom
    · intro hw
      obtain ⟨b,hshift,rfl⟩ := Option.map_eq_some_iff.mp hs
      rw [shiftLeft,if_pos hw] at hshift
      have hsome := Option.isSome_iff_exists.mpr ⟨b,hshift⟩
      exact ⟨lt_bufferSize.mpr ((slideLeft_isSome h.endIndex).mp hsome),
        (h.counted_backspace hw).mp hc⟩
    · obtain ⟨b,-,rfl⟩ := Option.map_eq_some_iff.mp hs
      exact h.counted_newLine.mp hc
    · intro _
      obtain ⟨b,hshift,rfl⟩ := Option.map_eq_some_iff.mp hs
      obtain ⟨b₁,hb₁,-⟩ := Option.bind_eq_some_iff.mp hshift
      exact (shiftRight_isSome h.endIndex).mp (Option.isSome_iff_exists.mpr ⟨b₁,hb₁⟩)
    · exact fun hroom' => absurd hroom' hroom
  | readBuffer =>
    intro hlt
    obtain ⟨ch,hch⟩ := h.load
    simp only [Keyboard.step,readBuffer,hch,if_pos hlt,Option.map_some,Option.some.injEq] at hs
    subst hs
    exact (h.counted_take hlt).mp hc
  | nonBlockRead =>
    intro hlt
    obtain ⟨ch,hch⟩ := h.load
    simp only [Keyboard.step,nonBlockRead,hch,if_pos hlt,Option.map_some,Option.some.injEq] at hs
    subst hs
    exact (h.counted_take hlt).mp hc
  | keyboardLeft | keyboardRight => trivial
  | resetBuffer =>
    simp only [Keyboard.step,Option.some.injEq] at hs
    subst hs
    exact h.counted_resetBuffer.mp hc

theorem initial_indexed : initial.Indexed :=
  ⟨⟨rfl,by decide⟩,Nat.zero_lt_succ _,Nat.zero_lt_succ _,Nat.zero_lt_succ _⟩

/-- Over every run of the buffer's calls, all accesses are inside the array and the size is
right in every state exactly if each call meets its condition. -/
theorem buffer_size (ls : List KeyCall) :
    ((∃ k, Runs.run step initial ls = some k) ∧ Runs.Always step Counted initial ls) ↔
      Runs.Along step Keeps initial ls := by
  apply Runs.possible_always_iff_along (I := Indexed) (fun k hk => hk.counted)
  · exact fun k l hk hl => hk.step hl
  · exact fun k l k' hk hs hc => hk.keeps hs hc
  · exact initial_indexed

/-- A character is typed, taken by a raw read, and then deleted. -/
theorem not_buffer_size : ∃ ls, (∃ k, Runs.run step initial ls = some k) ∧
    ¬ Runs.Always step Counted initial ls := by
  refine ⟨[.writeBuffer 97,.nonBlockRead,.writeBuffer 8],⟨_,rfl⟩,fun h => ?_⟩
  have hc := h _ _ (List.prefix_refl _) rfl
  exact absurd hc.2 (by decide)

/-! ### What is unread -/

def unread (k : Keyboard) : List UInt8 :=
  contentsFrom k.kbBuffer 3000 k.terminal.readIndex.toNat k.terminal.size.toNat

theorem holds_unread (k : Keyboard) : Holds k.kbBuffer 3000 k.terminal.readIndex.toNat k.unread :=
  holds_contentsFrom _ _ _ _

theorem length_unread (k : Keyboard) : k.unread.length = k.terminal.size.toNat :=
  length_contentsFrom _ _ _ _

theorem unread_eq {xs : List UInt8} (h : Holds k.kbBuffer 3000 k.terminal.readIndex.toNat xs)
    (hlen : xs.length = k.terminal.size.toNat) : k.unread = xs := by
  rw [h.eq_contentsFrom,hlen]
  rfl

/-- A line feed goes behind all that is unread. -/
theorem Indexed.unread_newLine (h : k.Indexed) (hl : k.terminal.size < bufferSize-1)
    (hb : store k.terminal.endIndex c k.kbBuffer = some b) :
    unread ⟨k.terminal.newLine,b⟩ = k.unread++[c] := by
  obtain ⟨⟨hsize,-⟩,-,hend,hread⟩ := h
  rw [lt_room] at hl
  have hlen := length_unread k
  have hcell : (k.terminal.readIndex.toNat+k.unread.length) % 3000 = k.terminal.endIndex.toNat := by
    omega
  rw [store,if_pos (lt_bufferSize.mpr hend),Option.some_inj] at hb
  apply unread_eq
  · rw [← hb,← hcell]
    exact k.holds_unread.put (by omega)
  · simp only [List.length_append,List.length_singleton,Terminal.newLine,toNat_add_one]
    omega

/-- Any other character comes in between. A tail that begins in front of `readIndex` brings
the last character that has been read into the first unread place. -/
theorem Indexed.unread_char (h : k.Indexed) (hroom : k.terminal.size < bufferSize-1)
    (hl : k.terminal.writeIndex ≤ k.terminal.endIndex)
    (hb : k.shiftRight.bind (store k.terminal.writeIndex c) = some b) :
    ∃ xs a ys, k.unread = xs++ys ∧ unread ⟨k.terminal.char,b⟩ = xs++a::ys := by
  obtain ⟨⟨hsize,-⟩,-,hend,hread⟩ := h
  have hlt := lt_room.mp hroom
  rw [UInt16.le_iff_toNat_le] at hl
  obtain ⟨b₁,hb₁,hmove,hkeep⟩ := shiftRight_spec (cell_toNat (by omega)).symm
    (cell_toNat hend).symm ⟨hl,by omega⟩ (by omega)
  rw [hb₁,Option.bind_some,store,if_pos (lt_bufferSize.mpr (by omega)),Option.some_inj] at hb
  subst hb
  have hlen := length_unread k
  obtain ⟨p,hp,hplace⟩ : ∃ p ≤ k.unread.length, p = 0 ∧ k.terminal.writeIndex.toNat <
      k.terminal.readIndex.toNat ∧ k.terminal.readIndex.toNat ≤ k.terminal.endIndex.toNat ∨
        (k.terminal.readIndex.toNat+p) % 3000 = k.terminal.writeIndex.toNat := by
    by_cases hcase : k.terminal.writeIndex.toNat < k.terminal.readIndex.toNat ∧
        k.terminal.readIndex.toNat ≤ k.terminal.endIndex.toNat
    · exact ⟨0,Nat.zero_le _,Or.inl ⟨rfl,hcase⟩⟩
    · refine ⟨(k.terminal.writeIndex.toNat+3000-k.terminal.readIndex.toNat) % 3000,?_,Or.inr ?_⟩
      · omega
      · omega
  have hx : (k.unread.take p).length = p := List.length_take_of_le hp
  have hy : (k.unread.drop p).length = k.unread.length-p := List.length_drop
  have hsplit : Holds k.kbBuffer 3000 k.terminal.readIndex.toNat
      (k.unread.take p++k.unread.drop p) := by
    rw [List.take_append_drop]
    exact k.holds_unread
  obtain ⟨a,hholds⟩ : ∃ a, Holds (Function.update b₁ k.terminal.writeIndex.toNat c) 3000
      k.terminal.readIndex.toNat (k.unread.take p++a::k.unread.drop p) := by
    refine ⟨_,hsplit.insert (fun i hi => ?_) rfl (fun i hi hie => ?_)⟩
    · rw [Function.update_of_ne (by omega)]
      exact hkeep _ (fun m hm hme => by omega)
    · obtain ⟨m,hm,hme,hmi⟩ : ∃ m, k.terminal.writeIndex.toNat ≤ m ∧
          m < k.terminal.endIndex.toNat ∧ (k.terminal.readIndex.toNat+i) % 3000 = m % 3000 :=
        ⟨(k.terminal.readIndex.toNat+i) % 3000,by omega,by omega,by omega⟩
      have hnext : (k.terminal.readIndex.toNat+(i+1)) % 3000 = (m+1) % 3000 := by omega
      rw [hnext,hmi,Function.update_of_ne (by omega)]
      exact hmove m hm hme
  have htaken : k.terminal.char.readIndex = k.terminal.readIndex := by
    simp [Terminal.char,hroom]
  refine ⟨k.unread.take p,a,k.unread.drop p,(List.take_append_drop _ _).symm,unread_eq ?_ ?_⟩
  · rw [htaken]
    exact hholds
  · simp only [Terminal.char,if_pos hroom,toNat_add_one,List.length_append,List.length_cons]
    omega

/-- A character that is no deletion is refused only when the buffer is full. Else the buffer
holds one character more than before, and all those that have been unread. -/
theorem Indexed.writes (h : k.Indexed) (hne : c ≠ 8) (hl : k.Writable c) :
    ∃ k', k.writeBuffer c = some k' ∧ (k' = k ∧ k.unread.length = 2999 ∨
      ∃ xs a ys, k.unread = xs++ys ∧ k'.unread = xs++a::ys) := by
  unfold Writable at hl
  rw [if_neg hne] at hl
  unfold writeBuffer
  rw [if_neg hne]
  split_ifs at hl ⊢ with hn hroom
  · obtain ⟨b,hb,-⟩ := h.commit hl c
    rw [hb]
    exact ⟨_,rfl,Or.inr ⟨k.unread,c,[],(List.append_nil _).symm,h.unread_newLine hl hb⟩⟩
  · obtain ⟨b,hb,-⟩ := h.insertion hroom (hl hroom) c
    rw [hb]
    exact ⟨_,rfl,Or.inr (h.unread_char hroom (hl hroom) hb)⟩
  · have hmax := le_room.mp h.counted.2
    have hfull := mt lt_room.mpr hroom
    refine ⟨k,rfl,Or.inl ⟨rfl,?_⟩⟩
    rw [length_unread]
    omega

/-- In every run whose calls meet their conditions, characters are refused only when the
buffer is full, and none that is unread is overwritten. -/
theorem unread_kept {ls : List KeyCall} (hk : Runs.Along step Keeps initial ls)
    (h : Runs.run step initial ls = some k) (hne : c ≠ 8) (hl : k.Writable c) :
    ∃ k', k.writeBuffer c = some k' ∧ (k' = k ∧ k.unread.length = 2999 ∨
      ∃ xs a ys, k.unread = xs++ys ∧ k'.unread = xs++a::ys) := by
  have hindexed := (hk.invariant (I := Indexed) (D := fun _ _ => True) (fun k l k' hk hl hs => ?_)
    (fun _ _ _ _ => trivial) initial_indexed).2 k h
  · exact hindexed.writes hne hl
  · obtain ⟨t,ht,hi⟩ := hk.step hl
    obtain rfl := Option.some.inj (ht.symm.trans hs)
    exact hi

end Keyboard
end ComplexOS
