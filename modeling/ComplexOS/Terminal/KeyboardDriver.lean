import ComplexOS.Library.Runs
import ComplexOS.Terminal.LineDiscipline

/-! # The keyboard driver

`keyboard.c`, one call of `parseScanCode` for each byte that the keyboard sends. Beside it
stands a keyboard with its keys held and released.
-/
namespace ComplexOS
open Runs

/-- What the driver calls. It passes on no zero. -/
inductive KeyboardCall
  | writeBuffer (ch : KeyChar)
  | killForeground
  | keyboardLeft
  | keyboardRight
  deriving DecidableEq

structure KeyboardDriver where
  shiftMayus : UInt8
  leftShift : Bool
  rightShift : Bool
  specialKey : Bool
  ctrl : Bool
  deriving DecidableEq

/-- `scanCodes`. What is not listed is `0`. -/
def scanCodes : List (List UInt8) :=
  [[0,0,49,50,51,52,53,54,55,56,57,48,39,0,8,
    9,113,119,101,114,116,121,117,105,111,112,0,43,10,
    0,97,115,100,102,103,104,106,107,108,0,123,124,0,125,
    122,120,99,118,98,110,109,44,46,45,0,42,0,32,
    0,0,0,0,0,0,0,0,0,0,0,0,0,
    55,56,57,45,52,53,54,43,49,50,51,48,46,
    0,0,60,0,0],
   [0,0,33,34,35,36,37,38,47,40,41,61,63,0,8,
    9,81,87,69,82,84,89,85,73,79,80,0,42,10,
    0,65,83,68,70,71,72,74,75,76,0,91,0,0,93,
    90,88,67,86,66,78,77,59,58,95,0,42,0,32,
    0,0,0,0,0,0,0,0,0,0,0,0,0,
    55,56,57,45,52,53,54,43,49,50,51,48,46,
    0,0,62,0,0],
   [0,0,49,50,51,52,53,54,55,56,57,48,39,0,8,
    9,81,87,69,82,84,89,85,73,79,80,0,43,10,
    0,65,83,68,70,71,72,74,75,76,0,123,124,0,125,
    90,88,67,86,66,78,77,44,46,45,0,42,0,32,
    0,0,0,0,0,0,0,0,0,0,0,0,0,
    55,56,57,45,52,53,54,43,49,50,51,48,46,
    0,0,60,0,0],
   [0,0,33,34,35,36,37,38,47,40,41,61,63,0,8,
    9,113,119,101,114,116,121,117,105,111,112,0,42,10,
    0,97,115,100,102,103,104,106,107,108,0,91,0,0,93,
    122,120,99,118,98,110,109,59,58,95,0,42,0,32,
    0,0,0,0,0,0,0,0,0,0,0,0,0,
    55,56,57,45,52,53,54,43,49,50,51,48,46,
    0,0,62,0,0]]

def scanCodeAt (shiftMayus scanCode : UInt8) : UInt8 :=
  (scanCodes.getD shiftMayus.toNat []).getD scanCode.toNat 0

namespace KeyboardDriver
variable (s : KeyboardDriver)

def initial : KeyboardDriver := ⟨0,false,false,false,false⟩

/-- The two shifts have one bit between them. -/
def releaseShift : KeyboardDriver :=
  if s.leftShift || s.rightShift then s else { s with shiftMayus := s.shiftMayus &&& 2 }

def parseSpecialKey (scanCode : UInt8) : KeyboardDriver × List KeyboardCall :=
  let s := { s with specialKey := false }
  if scanCode = 0x2A then ({ s with leftShift := true, shiftMayus := s.shiftMayus ||| 1 },[])
  else if scanCode = 0x36 then ({ s with rightShift := true, shiftMayus := s.shiftMayus ||| 1 },[])
  else if scanCode = 0xAA then (releaseShift { s with leftShift := false },[])
  else if scanCode = 0xB6 then (releaseShift { s with rightShift := false },[])
  else if scanCode = 0x3A then ({ s with shiftMayus := s.shiftMayus ^^^ 2 },[])
  else if scanCode = 0x4B then (s,[.keyboardLeft])
  else if scanCode = 0x4D then (s,[.keyboardRight])
  else if scanCode = 0x1D then ({ s with ctrl := true },[])
  else if scanCode = 0x9D then ({ s with ctrl := false },[])
  else (s,[])

/-- `LEFT_SHIFT_PRESS` to `CTRL_RELEASE`. -/
def modifiers : List UInt8 := [0x2A,0xAA,0x36,0xB6,0x3A,0xBA,0x1D,0x9D]

def parseScanCode (scanCode : UInt8) : KeyboardDriver × List KeyboardCall :=
  if s.specialKey then s.parseSpecialKey scanCode
  else if scanCode ∈ modifiers then s.parseSpecialKey scanCode
  else if scanCode = 0xE0 then ({ s with specialKey := true },[])
  else if scanCode < 0x80 then
    let ch := scanCodeAt s.shiftMayus scanCode
    if h : ch ≠ 0 then
      if s.ctrl ∧ ch = 99 then (s,[.killForeground]) else (s,[.writeBuffer ⟨ch,h⟩])
    else (s,[])
  else (s,[])

def feed : KeyboardDriver → List UInt8 → KeyboardDriver × List KeyboardCall
  | s, [] => (s,[])
  | s, b::bs =>
    let x := s.parseScanCode b
    let y := feed x.1 bs
    (y.1,x.2++y.2)

end KeyboardDriver

/-! ### Keys -/

/-- The code of a key that sends one byte: not one of the modifiers, and not one whose release
would be the byte before the codes of the other keys. -/
structure PlainKey where
  code : UInt8
  small : code < 0x60
  plain : code ∉ KeyboardDriver.modifiers

structure ExtendedKey where
  code : UInt8
  small : code < 0x80
  plain : code ∉ KeyboardDriver.modifiers

inductive KeyboardKey
  | leftShift
  | rightShift
  | capsLock
  | leftCtrl
  | rightCtrl
  | plain (k : PlainKey)
  | extended (k : ExtendedKey)

/-- A key that is held is pressed again and again. -/
inductive KeyMove
  | press (k : KeyboardKey)
  | release (k : KeyboardKey)

namespace KeyboardKey

def code : KeyboardKey → UInt8
  | .leftShift => 0x2A
  | .rightShift => 0x36
  | .capsLock => 0x3A
  | .leftCtrl => 0x1D
  | .rightCtrl => 0x1D
  | .plain k => k.code
  | .extended k => k.code

def lead : KeyboardKey → List UInt8
  | .rightCtrl => [0xE0]
  | .extended _ => [0xE0]
  | _ => []

end KeyboardKey

def KeyMove.bytes : KeyMove → List UInt8
  | .press k => k.lead++[k.code]
  | .release k => k.lead++[k.code+0x80]

structure Keys where
  leftShift : Bool
  rightShift : Bool
  leftCtrl : Bool
  rightCtrl : Bool
  capsLock : Bool
  deriving DecidableEq

namespace Keys
variable (k : Keys)

def idle (capsLock : Bool) : Keys := ⟨false,false,false,false,capsLock⟩

/-- The layout: one of four planes. -/
def shiftMayus : UInt8 :=
  (if k.leftShift || k.rightShift then 1 else 0)+(if k.capsLock then 2 else 0)

def char (scanCode : UInt8) : UInt8 := scanCodeAt k.shiftMayus scanCode

def set (held : Bool) : KeyboardKey → Keys
  | .leftShift => { k with leftShift := held }
  | .rightShift => { k with rightShift := held }
  | .leftCtrl => { k with leftCtrl := held }
  | .rightCtrl => { k with rightCtrl := held }
  | _ => k

def calls : KeyboardKey → List KeyboardCall
  | .plain key =>
    if h : k.char key.code ≠ 0 then
      if (k.leftCtrl || k.rightCtrl) ∧ k.char key.code = 99 then [.killForeground]
      else [.writeBuffer ⟨k.char key.code,h⟩]
    else []
  | .extended key =>
    if key.code = 0x4B then [.keyboardLeft]
    else if key.code = 0x4D then [.keyboardRight]
    else []
  | _ => []

def step : KeyMove → Keys × List KeyboardCall
  | .press .capsLock => ({ k with capsLock := !k.capsLock },[])
  | .press key => (k.set true key,k.calls key)
  | .release key => (k.set false key,[])

def play : Keys → List KeyMove → Keys × List KeyboardCall
  | k, [] => (k,[])
  | k, m::ms =>
    let x := k.step m
    let y := play x.1 ms
    (y.1,x.2++y.2)

def next (m : KeyMove) : Option Keys := some (k.step m).1

def driver : KeyboardDriver :=
  ⟨k.shiftMayus,k.leftShift,k.rightShift,false,k.leftCtrl || k.rightCtrl⟩

def OneCtrl : KeyMove → Prop
  | .release .leftCtrl => k.rightCtrl = false
  | .release .rightCtrl => k.leftCtrl = false
  | _ => True

instance (m : KeyMove) : Decidable (k.OneCtrl m) := by
  unfold OneCtrl
  split <;> infer_instance

variable {k} {m : KeyMove} {ms : List KeyMove} {c : UInt8}

theorem release_notMem (h : c ∉ KeyboardDriver.modifiers) : c+0x80 ∉ KeyboardDriver.modifiers := by
  have hback : ∀ d : UInt8, c+0x80 = d → c = d-0x80 := fun d hd => by rw [← hd,UInt8.add_sub_cancel]
  intro hmem
  have hc : ∃ d ∈ KeyboardDriver.modifiers, c = d-0x80 := ⟨_,hmem,hback _ rfl⟩
  obtain ⟨d,hd,rfl⟩ := hc
  revert h
  simp only [KeyboardDriver.modifiers,List.mem_cons,List.not_mem_nil,or_false] at hd
  rcases hd with rfl | rfl | rfl | rfl | rfl | rfl | rfl | rfl <;> decide

theorem release_large (h : c < 0x80) : ¬ c+0x80 < 0x80 := by
  rw [UInt8.lt_iff_toNat_lt] at h ⊢
  rw [UInt8.toNat_add]
  simp only [show (0x80 : UInt8).toNat = 128 from rfl] at h ⊢
  omega

theorem parseScanCode_plain (key : PlainKey) : k.driver.parseScanCode key.code =
    (k.driver,k.calls (.plain key)) := by
  have hlead : key.code ≠ 0xE0 := by
    intro he
    have := key.small
    rw [he] at this
    exact absurd this (by decide)
  have hsmall : key.code < 0x80 := UInt8.lt_trans key.small (by decide)
  rw [KeyboardDriver.parseScanCode,if_neg (by simp [driver]),if_neg key.plain,if_neg hlead,
    if_pos hsmall]
  show (if h : k.char key.code ≠ 0 then _ else _) = _
  rw [calls]
  split
  · show (if (k.leftCtrl || k.rightCtrl) = true ∧ k.char key.code = 99 then _ else _) = _
    split <;> rfl
  · rfl

theorem parseSpecialKey_extended (h : c ∉ KeyboardDriver.modifiers) :
    KeyboardDriver.parseSpecialKey { k.driver with specialKey := true } c =
      (k.driver,if c = 0x4B then [.keyboardLeft] else if c = 0x4D then [.keyboardRight] else []) := by
  simp only [KeyboardDriver.modifiers,List.mem_cons,List.not_mem_nil,or_false,not_or] at h
  obtain ⟨h1,h2,h3,h4,h5,-,h7,h8⟩ := h
  rw [KeyboardDriver.parseSpecialKey,if_neg h1,if_neg h3,if_neg h2,if_neg h4,if_neg h5,if_neg h7,
    if_neg h8]
  split
  · rfl
  · split <;> rfl

theorem parseScanCode_large (hlarge : ¬ c < 0x80) (hmod : c ∉ KeyboardDriver.modifiers)
    (hlead : c ≠ 0xE0) : k.driver.parseScanCode c = (k.driver,[]) := by
  rw [KeyboardDriver.parseScanCode,if_neg (by simp [driver]),if_neg hmod,if_neg hlead,
    if_neg hlarge]

theorem parseScanCode_lead :
    k.driver.parseScanCode 0xE0 = ({ k.driver with specialKey := true },[]) := by
  rw [KeyboardDriver.parseScanCode,if_neg (by simp [driver]),if_neg (by decide),if_pos rfl]

theorem feed_lead : k.driver.feed [0xE0,c] =
    KeyboardDriver.parseSpecialKey { k.driver with specialKey := true } c := by
  simp only [KeyboardDriver.feed,parseScanCode_lead,List.nil_append,List.append_nil]
  rw [KeyboardDriver.parseScanCode,if_pos rfl]

theorem feed_one : k.driver.feed [c] = k.driver.parseScanCode c := by
  simp only [KeyboardDriver.feed,List.append_nil]

theorem release_plain (key : PlainKey) :
    k.driver.parseScanCode (key.code+0x80) = (k.driver,[]) := by
  have hsmall : key.code < 0x80 := UInt8.lt_trans key.small (by decide)
  refine parseScanCode_large (release_large hsmall) (release_notMem key.plain) fun he => ?_
  have hcode : key.code = 0xE0-0x80 := by rw [← he,UInt8.add_sub_cancel]
  have := key.small
  rw [hcode] at this
  exact absurd this (by decide)

theorem release_extended (key : ExtendedKey) :
    KeyboardDriver.parseSpecialKey { k.driver with specialKey := true } (key.code+0x80) =
      (k.driver,[]) := by
  have hlarge := release_large key.small
  rw [parseSpecialKey_extended (release_notMem key.plain),if_neg,if_neg]
  · exact fun he => hlarge (he ▸ by decide)
  · exact fun he => hlarge (he ▸ by decide)

/-- A key move, and the bytes that tell of it. -/
theorem feed_bytes (h : k.OneCtrl m) :
    k.driver.feed m.bytes = ((k.step m).1.driver,(k.step m).2) := by
  cases m with
  | press key =>
    cases key with
    | plain key => exact feed_one.trans (parseScanCode_plain key)
    | extended key => exact feed_lead.trans (parseSpecialKey_extended key.plain)
    | leftShift | rightShift | capsLock | leftCtrl | rightCtrl =>
      clear h
      obtain ⟨ls,rs,lc,rc,caps⟩ := k
      revert ls rs lc rc caps
      decide
  | release key =>
    cases key with
    | plain key => exact feed_one.trans (release_plain key)
    | extended key => exact feed_lead.trans (release_extended key)
    | leftShift | rightShift | capsLock =>
      clear h
      obtain ⟨ls,rs,lc,rc,caps⟩ := k
      revert ls rs lc rc caps
      decide
    | leftCtrl =>
      obtain ⟨ls,rs,lc,rc,caps⟩ := k
      change rc = false at h
      subst h
      revert ls rs lc caps
      decide
    | rightCtrl =>
      obtain ⟨ls,rs,lc,rc,caps⟩ := k
      change lc = false at h
      subst h
      revert ls rs rc caps
      decide

/-- The driver has one flag for two control keys. -/
theorem oneCtrl_of_feed (h : (k.driver.feed m.bytes).1 = (k.step m).1.driver) : k.OneCtrl m := by
  cases m with
  | press key => trivial
  | release key =>
    cases key with
    | leftCtrl =>
      obtain ⟨ls,rs,lc,rc,caps⟩ := k
      change rc = false
      revert ls rs lc rc caps
      decide
    | rightCtrl =>
      obtain ⟨ls,rs,lc,rc,caps⟩ := k
      change lc = false
      revert ls rs lc rc caps
      decide
    | leftShift | rightShift | capsLock | plain key | extended key => trivial

/-! ### Whole runs -/

theorem feed_append (s : KeyboardDriver) (bs bs' : List UInt8) : s.feed (bs++bs') =
    (((s.feed bs).1.feed bs').1,(s.feed bs).2++((s.feed bs).1.feed bs').2) := by
  induction bs generalizing s with
  | nil => rfl
  | cons b bs ih =>
    simp only [List.cons_append,KeyboardDriver.feed]
    rw [ih,List.append_assoc]

theorem feed_moves (h : Along next OneCtrl k ms) :
    k.driver.feed (ms.flatMap KeyMove.bytes) = ((k.play ms).1.driver,(k.play ms).2) := by
  induction ms generalizing k with
  | nil => rfl
  | cons m ms ih =>
    rw [List.flatMap_cons,feed_append,feed_bytes h.1]
    dsimp only
    rw [ih (h.2 _ rfl)]
    rfl

theorem follows_iff : (∀ pre, pre <+: ms → (k.driver.feed (pre.flatMap KeyMove.bytes)).1 =
    (k.play pre).1.driver) ↔ Along next OneCtrl k ms := by
  constructor
  · intro h
    induction ms generalizing k with
    | nil => trivial
    | cons m ms ih =>
      have hone : k.OneCtrl m := by
        have hm := h [m] (List.cons_prefix_cons.mpr ⟨rfl,List.nil_prefix⟩)
        rw [List.flatMap_cons,List.flatMap_nil,List.append_nil] at hm
        exact oneCtrl_of_feed hm
      refine ⟨hone,fun t ht => ?_⟩
      obtain rfl := Option.some.inj ht
      refine ih fun pre hp => ?_
      have hpre := h (m::pre) (List.cons_prefix_cons.mpr ⟨rfl,hp⟩)
      rw [List.flatMap_cons,feed_append,feed_bytes hone] at hpre
      exact hpre
  · intro h pre hp
    rw [feed_moves (h.of_prefix hp)]

/-- However keys are pressed and released, the driver knows what is held as long as no control key
is released while the other one is held, and not a move longer; and for so long it calls what the
layout has for the keys. -/
theorem driver_follows (ms : List KeyMove) :
    ((∀ pre, pre <+: ms → (KeyboardDriver.initial.feed (pre.flatMap KeyMove.bytes)).1 =
      ((idle false).play pre).1.driver) ↔ Along next OneCtrl (idle false) ms) ∧
    (Along next OneCtrl (idle false) ms →
      (KeyboardDriver.initial.feed (ms.flatMap KeyMove.bytes)).2 = ((idle false).play ms).2) := by
  have hidle : KeyboardDriver.initial = (idle false).driver := rfl
  rw [hidle]
  refine ⟨follows_iff,fun hms => ?_⟩
  rw [feed_moves hms]

end Keys
end ComplexOS
