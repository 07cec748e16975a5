import ComplexOS.Library.Runs
import Mathlib.Data.UInt
import Mathlib.Logic.Function.Basic

/-! # The screen

The video part of `terminal.c` with the cursor of `video.c`. The text memory is its cells
in row-major order, which is how they lie at `0xB8000`. An access outside the grid, and a
loop that has gone on for more rounds than there are cells, answer `none`. The cursors are
`uint8_t`, the other coordinates `int`.
-/
namespace ComplexOS

abbrev width : ℕ := 80
abbrev height : ℕ := 25

structure Cell where
  ch : UInt8
  style : UInt8
  deriving DecidableEq, Repr

def cellIndex (y x : ℤ) : Option ℕ :=
  if 0 ≤ y ∧ y < height ∧ 0 ≤ x ∧ x < width then some (y*width+x).toNat else none

structure Screen where
  video : ℕ → Cell
  cursorX : ℕ
  cursorY : ℕ
  /-- The cursor of `video.c`. -/
  videoX : ℕ
  videoY : ℕ
  cursorVisible : Bool
  defaultStyle : UInt8

def scanRounds : ℕ := width*height+1

theorem scanRounds_eq : scanRounds = 2001 := rfl

namespace Screen
variable (s : Screen)

def load (y x : ℤ) : Option Cell := (cellIndex y x).map s.video

def store (y x : ℤ) (c : Cell) : Option Screen :=
  (cellIndex y x).map (fun i => { s with video := Function.update s.video i c })

def updateCursor (x y : ℕ) : Screen := { s with videoX := x, videoY := y }

def writeAtCursor (ch style : UInt8) : Option Screen :=
  s.store s.videoY s.videoX ⟨if ch = 0 then 32 else ch,style⟩

/-- Both loops of `shiftScreen`: all rows go up by one, and the last is cleared. -/
def shiftScreen : Screen :=
  { s with video := fun i =>
      if i < width*(height-1) then s.video (i+width)
      else if i < width*height then ⟨0,s.defaultStyle⟩ else s.video i }

/-- `0x77 ^ style` at the cursor. -/
def invert : Option Screen :=
  (s.load s.cursorY s.cursorX).bind (fun c =>
    s.store s.cursorY s.cursorX { c with style := 119 ^^^ c.style })

def toggleCursors : Option Screen := if s.cursorVisible then s.invert else some s

def blinkCursor : Option Screen :=
  s.invert.map (fun s => { s with cursorVisible := !s.cursorVisible })

/-- To the start of the next row, with a scroll on the last one. -/
def newRow : Screen :=
  let s := { s with cursorX := 0 }
  if s.cursorY = height-1 then s.shiftScreen else { s with cursorY := (s.cursorY+1) % 256 }

def nextCell : Screen :=
  if s.cursorX = width-1 then s.newRow else { s with cursorX := (s.cursorX+1) % 256 }

def incrementCursor : Screen := s.nextCell.updateCursor s.nextCell.cursorX s.nextCell.cursorY

/-- The first loop of `printChar`, with `none` inside for its early return. -/
def findBlank : ℕ → ℤ → ℤ → Screen → Option (Option (ℤ × ℤ) × Screen)
  | 0, _, _, _ => none
  | n+1, x, y, s => (s.load y x).bind (fun c =>
    if c.ch ≠ 0 then
      if x+1 = width then
        if y = height-1 then
          if s.cursorY = 0 then some (none,s)
          else findBlank n 0 y { s.shiftScreen with cursorY := (s.cursorY+255) % 256 }
        else findBlank n 0 (y+1) s
      else findBlank n (x+1) y s
    else some (some (x,y),s))

/-- The second loop of `printChar`, with the value of `prevX` it ends with. -/
def moveCells : ℕ → ℤ → ℤ → ℤ → Screen → Option (ℤ × Screen)
  | 0, _, _, _, _ => none
  | n+1, x, y, prevX, s =>
    if x ≠ s.cursorX ∨ y ≠ s.cursorY then
      let prevX := if x-1 < 0 then (width:ℤ)-1 else x-1
      let prevY := if x-1 < 0 then y-1 else y
      (s.load prevY prevX).bind (fun c => (s.store y x c).bind (fun s =>
        moveCells n prevX prevY prevX s))
    else some (prevX,s)

def printChar (ch style : UInt8) : Option Screen :=
  (findBlank scanRounds s.cursorX s.cursorY s).bind (fun (found,s) => match found with
    | none => some s
    | some (x,y) => (moveCells scanRounds x y (-1) s).bind (fun (prevX,s) =>
      (s.store s.cursorY s.cursorX ⟨ch,style⟩).bind (fun s =>
        (if prevX = -1 then s.writeAtCursor ch style else some s).map incrementCursor)))

/-- The test lets `WIDTH` and `HEIGHT` themselves pass. -/
def printCharAtPos (ch : UInt8) (posX posY : ℤ) : Option Screen :=
  if posX < 0 ∨ posX > width ∨ posY < 0 ∨ posY > height then some s
  else s.store posY posX ⟨ch,s.defaultStyle⟩

/-- The loop of `newLine`. -/
def skipText : ℕ → Screen → Option Screen
  | 0, _ => none
  | n+1, s => (s.load s.cursorY s.cursorX).bind (fun c =>
    if c.ch ≠ 0 then skipText n s.nextCell else some s)

def newLine : Option Screen :=
  s.toggleCursors.bind (fun s => (skipText scanRounds s).bind (fun s =>
    (s.newRow.updateCursor s.newRow.cursorX s.newRow.cursorY).toggleCursors))

/-- The first loop of `backspace`, with the `offset` it counts. -/
def skipBlanks : ℕ → ℤ → ℤ → ℤ → Screen → Option (ℤ × Screen)
  | 0, _, _, _, _ => none
  | n+1, offset, prevX, prevY, s =>
    if prevY ≥ 0 then (s.load prevY prevX).bind (fun c =>
      if c.ch = 0 then
        skipBlanks n (offset+1) (if prevX-1 < 0 then (width:ℤ)-1 else prevX-1)
          (if prevX-1 < 0 then prevY-1 else prevY)
          { s with cursorX := (prevX % 256).toNat, cursorY := (prevY % 256).toNat }
      else some (offset,s))
    else some (offset,s)

/-- A column below `0` is one of the rows before. -/
def normalize : ℕ → ℤ → ℤ → Option (ℤ × ℤ)
  | 0, _, _ => none
  | n+1, prevX, prevY =>
    if prevX < 0 then normalize n (prevX+width) (prevY-1) else some (prevX,prevY)

/-- The second loop of `backspace`. -/
def pullCells (offset : ℤ) : ℕ → ℤ → ℤ → Screen → Option Screen
  | 0, _, _, _ => none
  | n+1, x, y, s => (normalize scanRounds (x-offset) y).bind (fun (prevX,prevY) =>
    (s.load y x).bind (fun c => (s.store prevY prevX c).bind (fun s =>
      (s.load y x).bind (fun d => (s.store y x { d with ch := 0 }).bind (fun s =>
        let nextX := if x = (width:ℤ)-1 then 0 else x+1
        let nextY := if x = (width:ℤ)-1 then y+1 else y
        if nextY < height then (s.load prevY prevX).bind (fun c =>
          if c.ch ≠ 0 then pullCells offset n nextX nextY s else some s)
        else some s)))))

def backspace : Option Screen :=
  if s.cursorY > 0 ∨ s.cursorX > 0 then s.toggleCursors.bind (fun s =>
    let x : ℤ := s.cursorX
    let y : ℤ := s.cursorY
    let prevX := if x = 0 then (width:ℤ)-1 else x-1
    let prevY := if x = 0 then y-1 else y
    (skipBlanks scanRounds 0 prevX prevY
      { s with cursorX := (prevX % 256).toNat, cursorY := (prevY % 256).toNat }).bind
      (fun (offset,s) =>
        (pullCells (if offset = 0 then 1 else offset) scanRounds x y s).bind (fun s =>
          (s.updateCursor s.cursorX s.cursorY).toggleCursors)))
  else some s

def printcWithStyle (ch style : UInt8) : Option Screen :=
  if ch = 8 then s.backspace
  else if ch = 10 then s.newLine
  else s.toggleCursors.bind (fun s => (s.printChar ch style).bind toggleCursors)

def printc (ch : UInt8) : Option Screen := s.printcWithStyle ch s.defaultStyle

/-- The loop of `cursorLeft` into the row before. -/
def endOfRow : ℕ → Screen → Option Screen
  | 0, _ => none
  | n+1, s =>
    if s.cursorX < width-1 then (s.load s.cursorY s.cursorX).bind (fun c =>
      if c.ch ≠ 0 then endOfRow n { s with cursorX := (s.cursorX+1) % 256 } else some s)
    else some s

def cursorLeft : Option Screen :=
  s.toggleCursors.bind (fun s =>
    (if s.cursorX > 0 then some { s with cursorX := (s.cursorX+255) % 256 }
    else if s.cursorY > 0 then endOfRow scanRounds { s with cursorY := (s.cursorY+255) % 256 }
    else some s).bind (fun s => (s.updateCursor s.cursorX s.cursorY).toggleCursors))

def cursorRight : Option Screen :=
  s.toggleCursors.bind (fun s =>
    (if s.cursorX = width-1 then some true
    else (s.load s.cursorY s.cursorX).map (fun c => decide (c.ch = 0))).bind (fun wraps =>
      let s := if wraps then
          if s.cursorY < height-1 then { s with cursorY := (s.cursorY+1) % 256, cursorX := 0 } else s
        else { s with cursorX := (s.cursorX+1) % 256 }
      (s.updateCursor s.cursorX s.cursorY).toggleCursors))

def clearScreen : Option Screen :=
  s.toggleCursors.bind (fun s =>
    let s := { s with
      video := fun i => if i < width*height then ⟨0,s.defaultStyle⟩ else s.video i
      cursorX := 0
      cursorY := 0 }
    (s.updateCursor 0 0).toggleCursors)

end Screen

/-! ### Cells by their number -/

def col (i : ℕ) : ℤ := (i % 80 : ℕ)
def row (i : ℕ) : ℤ := (i / 80 : ℕ)

variable {i j k n : ℕ} {x y : ℤ}

theorem cellIndex_eq_some : cellIndex y x = some i ↔ i < 2000 ∧ x = col i ∧ y = row i := by
  unfold cellIndex col row
  simp only [width,height]
  constructor
  · intro h
    split_ifs at h with hin
    have hi := Option.some.inj h
    omega
  · rintro ⟨hi,rfl,rfl⟩
    rw [if_pos (by omega)]
    congr 1
    omega

theorem cellIndex_at (hi : i < 2000) : cellIndex (row i) (col i) = some i :=
  cellIndex_eq_some.mpr ⟨hi,rfl,rfl⟩

theorem col_succ (h : (i+1) % 80 ≠ 0) : col (i+1) = col i+1 := by
  unfold col
  omega

theorem row_succ (h : (i+1) % 80 ≠ 0) : row (i+1) = row i := by
  unfold row
  omega

theorem col_wrap (h : (i+1) % 80 = 0) : col (i+1) = 0 ∧ col i+1 = 80 := by
  unfold col
  omega

theorem row_wrap (h : (i+1) % 80 = 0) : row (i+1) = row i+1 := by
  unfold row
  omega

namespace Screen
variable {s s' : Screen} {c : Cell}

def cell (s : Screen) : ℕ := s.cursorY*80+s.cursorX

structure Inside (s : Screen) : Prop where
  x : s.cursorX < 80
  y : s.cursorY < 25

theorem Inside.cell_lt (h : s.Inside) : s.cell < 2000 := by
  obtain ⟨hx,hy⟩ := h
  unfold cell
  omega

theorem Inside.col_cell (h : s.Inside) : col s.cell = s.cursorX := by
  obtain ⟨hx,hy⟩ := h
  unfold cell col
  omega

theorem Inside.row_cell (h : s.Inside) : row s.cell = s.cursorY := by
  obtain ⟨hx,hy⟩ := h
  unfold cell row
  omega

theorem load_at (hi : i < 2000) : s.load (row i) (col i) = some (s.video i) := by
  rw [load,cellIndex_at hi,Option.map_some]

theorem store_at (hi : i < 2000) (c : Cell) : s.store (row i) (col i) c =
    some { s with video := Function.update s.video i c } := by
  rw [store,cellIndex_at hi,Option.map_some]

theorem load_cursor (h : s.Inside) : s.load s.cursorY s.cursorX = some (s.video s.cell) := by
  rw [← h.col_cell,← h.row_cell,load_at h.cell_lt]

theorem store_cursor (h : s.Inside) (c : Cell) : s.store s.cursorY s.cursorX c =
    some { s with video := Function.update s.video s.cell c } := by
  rw [← h.col_cell,← h.row_cell,store_at h.cell_lt]

def inverted (s : Screen) : Screen :=
  { s with
    video := Function.update s.video s.cell ⟨(s.video s.cell).ch,119 ^^^ (s.video s.cell).style⟩ }

theorem invert_eq (h : s.Inside) : s.invert = some s.inverted := by
  rw [invert,load_cursor h,Option.bind_some,store_cursor h]
  rfl

def toggled (s : Screen) : Screen := if s.cursorVisible then s.inverted else s

theorem toggleCursors_eq (h : s.Inside) : s.toggleCursors = some s.toggled := by
  unfold toggleCursors toggled
  split
  · exact invert_eq h
  · rfl

@[simp] theorem toggled_cursorX : s.toggled.cursorX = s.cursorX := by
  unfold toggled inverted
  split <;> rfl

@[simp] theorem toggled_cursorY : s.toggled.cursorY = s.cursorY := by
  unfold toggled inverted
  split <;> rfl

@[simp] theorem toggled_videoX : s.toggled.videoX = s.videoX := by
  unfold toggled inverted
  split <;> rfl

@[simp] theorem toggled_videoY : s.toggled.videoY = s.videoY := by
  unfold toggled inverted
  split <;> rfl

@[simp] theorem toggled_cell : s.toggled.cell = s.cell := by simp [cell]

/-- The characters stay. -/
@[simp] theorem toggled_ch : (s.toggled.video i).ch = (s.video i).ch := by
  unfold toggled inverted
  split
  · by_cases h : i = s.cell
    · subst h
      simp
    · simp [h]
  · rfl

theorem Inside.toggled (h : s.Inside) : s.toggled.Inside := ⟨by simpa using h.x,by simpa using h.y⟩

/-- After a scroll the last row is blank. -/
theorem shiftScreen_last (hi : 1920 ≤ i) (hi' : i < 2000) :
    s.shiftScreen.video i = ⟨0,s.defaultStyle⟩ := by
  simp only [shiftScreen,width,height]
  rw [if_neg (by omega),if_pos (by omega)]

theorem shiftScreen_up (hi : i < 1920) : s.shiftScreen.video i = s.video (i+80) := by
  simp only [shiftScreen,width,height]
  rw [if_pos (by omega)]

@[simp] theorem shiftScreen_cursorX : s.shiftScreen.cursorX = s.cursorX := rfl
@[simp] theorem shiftScreen_cursorY : s.shiftScreen.cursorY = s.cursorY := rfl

/-! ### The step to the next cell -/

theorem Inside.newRow (h : s.Inside) : s.newRow.Inside ∧ s.newRow.cursorX = 0 := by
  obtain ⟨hx,hy⟩ := h
  simp only [Screen.newRow,height]
  split_ifs with hlast
  · exact ⟨⟨by simp,by simpa using hy⟩,rfl⟩
  · refine ⟨⟨by simp,?_⟩,rfl⟩
    change (s.cursorY+1) % 256 < 25
    change ¬ s.cursorY = 24 at hlast
    omega

theorem Inside.nextCell (h : s.Inside) : s.nextCell.Inside := by
  simp only [Screen.nextCell,width]
  split_ifs with hlast
  · exact h.newRow.1
  · obtain ⟨hx,hy⟩ := h
    refine ⟨?_,hy⟩
    change (s.cursorX+1) % 256 < 80
    omega

/-- Before the last cell the step is by one and scrolls nothing. -/
theorem Inside.nextCell_cell (h : s.Inside) (hlt : s.cell+1 < 2000) :
    s.nextCell.cell = s.cell+1 ∧ s.nextCell.video = s.video := by
  obtain ⟨hx,hy⟩ := h
  unfold cell at hlt
  simp only [Screen.nextCell,Screen.newRow,width,height]
  split_ifs with hlast hrow
  · omega
  · refine ⟨?_,rfl⟩
    change (s.cursorY+1) % 256*80+0 = s.cursorY*80+s.cursorX+1
    omega
  · refine ⟨?_,rfl⟩
    change s.cursorY*80+(s.cursorX+1) % 256 = s.cursorY*80+s.cursorX+1
    omega

/-- From the last cell it is to the start of the row, after a scroll. -/
theorem Inside.nextCell_last (h : s.Inside) (hlast : s.cell = 1999) :
    s.nextCell = { s.shiftScreen with cursorX := 0 } := by
  obtain ⟨hx,hy⟩ := h
  unfold cell at hlast
  have hX : s.cursorX = 79 := by omega
  have hY : s.cursorY = 24 := by omega
  simp [Screen.nextCell,Screen.newRow,hX,hY]
  rfl

end Screen
end ComplexOS
