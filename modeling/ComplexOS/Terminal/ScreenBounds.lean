import ComplexOS.Terminal.Deletion

/-! # The bounds of the screen

Every operation of the terminal but one ends with its cursors on the screen and reads and
writes no cell outside it, from any text and any cursor. `printCharAtPos` does so unless
it is asked for the column or the row right behind the screen.
-/
namespace ComplexOS.Screen
variable {s t : Screen} {i k m n o : ℕ} {ch style : UInt8}

structure Bounded (s : Screen) : Prop extends Inside s where
  videoX : s.videoX < 80
  videoY : s.videoY < 25

theorem Bounded.toggled (h : s.Bounded) : s.toggled.Bounded :=
  ⟨h.toInside.toggled,by simpa using h.videoX,by simpa using h.videoY⟩

/-- Every operation ends by telling `video.c` where the cursor is. -/
theorem Inside.updated (h : s.Inside) : (s.updateCursor s.cursorX s.cursorY).Bounded :=
  ⟨⟨h.x,h.y⟩,h.x,h.y⟩

theorem Inside.finished (h : s.Inside) :
    ∃ t, (s.updateCursor s.cursorX s.cursorY).toggleCursors = some t ∧ t.Bounded :=
  ⟨_,toggleCursors_eq h.updated.toInside,h.updated.toggled⟩

theorem Inside.incrementCursor (h : s.Inside) : s.incrementCursor.Bounded := h.nextCell.updated

/-! ### One operation -/

/-- The search ends before a blank cell, or has nothing to give. -/
theorem Bounded.findBlank (h : s.Bounded) :
    findBlank scanRounds s.cursorX s.cursorY s = some (none,s) ∨
    ∃ n t, findBlank scanRounds s.cursorX s.cursorY s = some (some (col n,row n),t) ∧ n < 2000 ∧
      t.cell ≤ n ∧ t.Bounded := by
  classical
  by_cases hblank : ∃ n, s.cell ≤ n ∧ n < 2000 ∧ (s.video n).ch = 0
  · obtain ⟨hbehind,hinside,hch⟩ := Nat.find_spec hblank
    have hfirst : s.FirstBlank (Nat.find hblank) :=
      ⟨hbehind,hinside,hch,fun i hi hlt hzero =>
        Nat.find_min hblank hlt ⟨hi,by omega,hzero⟩⟩
    exact Or.inr ⟨_,s,findBlank_first h.toInside hfirst,hinside,hbehind,h⟩
  · have hfull : s.Full := fun i hi hlt hzero => hblank ⟨i,hi,hlt,hzero⟩
    have hfound := findBlank_full h.toInside hfull
    split_ifs at hfound with hrow
    · exact Or.inl hfound
    · obtain ⟨⟨hx,hy⟩,hvx,hvy⟩ := h
      refine Or.inr ⟨1920,_,hfound,by omega,?_,⟨hx,?_⟩,hvx,hvy⟩
      · change (s.cursorY+255) % 256*80+s.cursorX ≤ 1920
        omega
      · change (s.cursorY+255) % 256 < 25
        omega

theorem Bounded.writeAtCursor (h : s.Bounded) :
    ∃ t, s.writeAtCursor ch style = some t ∧ t.Bounded := by
  have hx : (s.videoX:ℤ) = col (s.videoY*80+s.videoX) := by
    have := h.videoX
    unfold col
    omega
  have hy : (s.videoY:ℤ) = row (s.videoY*80+s.videoX) := by
    have := h.videoX
    unfold row
    omega
  have hlt : s.videoY*80+s.videoX < 2000 := by
    have := h.videoX
    have := h.videoY
    omega
  rw [Screen.writeAtCursor,hx,hy,store_at hlt]
  exact ⟨_,rfl,⟨h.x,h.y⟩,h.videoX,h.videoY⟩

theorem Bounded.printChar (h : s.Bounded) : ∃ t, s.printChar ch style = some t ∧ t.Bounded := by
  unfold Screen.printChar
  rcases h.findBlank with hnone | ⟨n,t,hfound,hn,hle,ht⟩
  · rw [hnone]
    exact ⟨s,rfl,h⟩
  · have hfuel : n-t.cell < scanRounds := by
      rw [scanRounds_eq]
      omega
    rw [hfound,Option.bind_some]
    dsimp only
    rw [moveCells_spec ht.toInside hle hn hfuel,Option.bind_some]
    dsimp only
    rw [store_opened ht.toInside,Option.bind_some]
    have hinserted : (t.inserted t.cell n ⟨ch,style⟩).Bounded :=
      ⟨⟨ht.x,ht.y⟩,ht.videoX,ht.videoY⟩
    split_ifs
    · obtain ⟨r,hr,hin⟩ := hinserted.writeAtCursor
      exact ⟨_,by rw [hr]; rfl,hin.toInside.incrementCursor⟩
    · exact ⟨_,rfl,hinserted.toInside.incrementCursor⟩
    · obtain ⟨r,hr,hin⟩ := hinserted.writeAtCursor
      exact ⟨_,by rw [hr]; rfl,hin.toInside.incrementCursor⟩
    · exact ⟨_,rfl,hinserted.toInside.incrementCursor⟩

/-- The walk to the end of the text ends at the latest in the row that a scroll has cleared. -/
theorem skipText_ends (h : s.Inside) (hn : 2000-s.cell < n) :
    ∃ t, skipText n s = some t ∧ t.Inside := by
  induction n generalizing s with
  | zero => omega
  | succ n ih =>
    have hlt := h.cell_lt
    rw [skipText,load_cursor h,Option.bind_some]
    by_cases hch : (s.video s.cell).ch = 0
    · rw [if_neg (not_not.mpr hch)]
      exact ⟨s,rfl,h⟩
    rw [if_pos hch]
    by_cases hlast : s.cell = 1999
    · obtain ⟨n,rfl⟩ := Nat.exists_eq_succ_of_ne_zero (by omega : n ≠ 0)
      have hnext := h.nextCell
      rw [h.nextCell_last hlast] at hnext ⊢
      have hcell : 1920 ≤ Screen.cell { s.shiftScreen with cursorX := 0 } := by
        change 1920 ≤ s.cursorY*80+0
        have := h.x
        unfold cell at hlast
        omega
      have hblank := shiftScreen_last (s := s) hcell hnext.cell_lt
      rw [skipText,load_cursor hnext,Option.bind_some,if_neg]
      · exact ⟨_,rfl,hnext⟩
      · change ¬ (s.shiftScreen.video _).ch ≠ 0
        rw [hblank]
        exact not_not.mpr rfl
    · obtain ⟨hcell,-⟩ := h.nextCell_cell (by omega)
      exact ih h.nextCell (by omega)

theorem Bounded.newLine (h : s.Bounded) : ∃ t, s.newLine = some t ∧ t.Bounded := by
  have ht := h.toInside.toggled
  obtain ⟨r,hr,hin⟩ := skipText_ends (n := scanRounds) ht (by
    have := ht.cell_lt
    rw [scanRounds_eq]
    omega)
  rw [Screen.newLine,toggleCursors_eq h.toInside,Option.bind_some,hr,Option.bind_some]
  exact hin.newRow.1.finished

/-- One cell before cell `k`, also where that is before the screen. -/
def beforeX (k : ℕ) : ℤ := if col k = 0 then (width:ℤ)-1 else col k-1
def beforeY (k : ℕ) : ℤ := if col k = 0 then row k-1 else row k

theorem before_succ : beforeX (k+1) = col k ∧ beforeY (k+1) = row k := by
  unfold beforeX beforeY col row width
  split_ifs <;> omega

theorem inside_at (hi : i < 2000) :
    Inside { s with cursorX := (col i % 256).toNat, cursorY := (row i % 256).toNat } := by
  constructor
  · change (col i % 256).toNat < 80
    unfold col
    omega
  · change (row i % 256).toNat < 25
    unfold row
    omega

/-- The blanks before cell `k` are counted, and the cursor goes to the first of them. -/
theorem skipBlanks_ends (h : s.Inside) (hk : k < 2000) (hn : k < n) :
    ∃ (m : ℕ) (t : Screen), skipBlanks n o (beforeX k) (beforeY k) s = some ((m:ℤ),t) ∧ o ≤ m ∧ m ≤ o+k ∧
      t.Inside := by
  induction n generalizing k o s with
  | zero => omega
  | succ n ih =>
    rw [skipBlanks]
    cases k with
    | zero =>
      have hneg : ¬ beforeY 0 ≥ 0 := by decide
      rw [if_neg hneg]
      exact ⟨o,s,rfl,le_rfl,le_rfl,h⟩
    | succ k =>
      obtain ⟨hx,hy⟩ := before_succ (k := k)
      rw [hx,hy,if_pos (by unfold row; omega),load_at (by omega),Option.bind_some]
      have hX : (if col k-1 < 0 then (width:ℤ)-1 else col k-1) = beforeX k := by
        unfold beforeX col
        split_ifs <;> omega
      have hY : (if col k-1 < 0 then row k-1 else row k) = beforeY k := by
        unfold beforeY col
        split_ifs <;> omega
      rw [hX,hY]
      split_ifs
      · obtain ⟨m,t,hm,hle,hle',ht⟩ := ih (o := o+1) (inside_at (by omega : k < 2000)) (by omega)
          (by omega : k < n)
        rw [Nat.cast_succ] at hm
        exact ⟨m,t,hm,by omega,by omega,ht⟩
      · exact ⟨o,s,rfl,le_rfl,by omega,h⟩

/-- The text comes back over any blanks before it, and the cursor stays. -/
theorem pullCells_ends (hi : i < 2000) (ho : o ≤ i) (hpos : 0 < o) (hn : 2000-i ≤ n) :
    ∃ t, pullCells o n (col i) (row i) s = some t ∧ t.cursorX = s.cursorX ∧
      t.cursorY = s.cursorY := by
  induction n generalizing i s with
  | zero => omega
  | succ n ih =>
    rw [pullCells_step hi ho hpos]
    split_ifs with hgo
    · exact ih hgo.1 (by omega) (by omega)
    · exact ⟨_,rfl,rfl,rfl⟩

theorem Bounded.backspace (h : s.Bounded) : ∃ t, s.backspace = some t ∧ t.Bounded := by
  unfold Screen.backspace
  split_ifs with hpos
  swap
  · exact ⟨s,rfl,h⟩
  have ht := h.toInside.toggled
  have hcol := ht.col_cell
  have hrow := ht.row_cell
  have hlt := ht.cell_lt
  have hcell : 0 < s.toggled.cell := by
    rw [toggled_cell]
    unfold cell
    omega
  rw [toggleCursors_eq h.toInside,Option.bind_some]
  dsimp only
  rw [← hcol,← hrow]
  change ∃ t, (skipBlanks scanRounds 0 (beforeX s.toggled.cell) (beforeY s.toggled.cell)
    { s.toggled with
      cursorX := (beforeX s.toggled.cell % 256).toNat
      cursorY := (beforeY s.toggled.cell % 256).toNat }).bind _ = some t ∧ _
  obtain ⟨k,hk⟩ := Nat.exists_eq_succ_of_ne_zero hcell.ne'
  have hin : Inside { s.toggled with
      cursorX := (beforeX s.toggled.cell % 256).toNat
      cursorY := (beforeY s.toggled.cell % 256).toNat } := by
    obtain ⟨hx,hy⟩ := before_succ (k := k)
    rw [hk,Nat.succ_eq_add_one,hx,hy]
    exact inside_at (by omega)
  obtain ⟨m,t,hm,-,hle,htin⟩ := skipBlanks_ends (o := 0) (n := scanRounds) hin hlt
    (by rw [scanRounds_eq]; omega)
  rw [Nat.cast_zero] at hm
  rw [hm,Option.bind_some]
  dsimp only
  obtain ⟨o,ho,hopos,hole⟩ : ∃ o : ℕ, (if (m:ℤ) = 0 then 1 else (m:ℤ)) = o ∧ 0 < o ∧
      o ≤ s.toggled.cell := by
    by_cases hzero : m = 0
    · exact ⟨1,by simp [hzero],Nat.one_pos,hcell⟩
    · exact ⟨m,by simp [hzero],Nat.pos_of_ne_zero hzero,by omega⟩
  obtain ⟨r,hr,hrx,hry⟩ := pullCells_ends (s := t) (n := scanRounds) hlt hole hopos
    (by rw [scanRounds_eq]; omega)
  rw [ho,hr,Option.bind_some]
  exact Inside.finished ⟨by rw [hrx]; exact htin.x,by rw [hry]; exact htin.y⟩

theorem Bounded.printcWithStyle (h : s.Bounded) :
    ∃ t, s.printcWithStyle ch style = some t ∧ t.Bounded := by
  unfold Screen.printcWithStyle
  split_ifs
  · exact h.backspace
  · exact h.newLine
  · obtain ⟨t,ht,hin⟩ := h.toggled.printChar
    rw [toggleCursors_eq h.toInside,Option.bind_some,ht,Option.bind_some,
      toggleCursors_eq hin.toInside]
    exact ⟨_,rfl,hin.toggled⟩

theorem endOfRow_ends (h : s.Inside) (hn : 79-s.cursorX < n) :
    ∃ t, endOfRow n s = some t ∧ t.Inside := by
  induction n generalizing s with
  | zero => omega
  | succ n ih =>
    rw [endOfRow]
    split_ifs with hlt
    · rw [load_cursor h,Option.bind_some]
      simp only [width] at hlt
      have hx : (s.cursorX+1) % 256 = s.cursorX+1 := by omega
      split_ifs
      · apply ih
        · exact ⟨by change (s.cursorX+1) % 256 < 80; omega,h.y⟩
        · change 79-(s.cursorX+1) % 256 < n
          omega
      · exact ⟨s,rfl,h⟩
    · exact ⟨s,rfl,h⟩

theorem Bounded.cursorLeft (h : s.Bounded) : ∃ t, s.cursorLeft = some t ∧ t.Bounded := by
  have ht := h.toInside.toggled
  rw [Screen.cursorLeft,toggleCursors_eq h.toInside,Option.bind_some]
  obtain ⟨hx,hy⟩ := ht
  split_ifs with hcol hrow
  · exact Inside.finished (s := { s.toggled with cursorX := (s.toggled.cursorX+255) % 256 })
      ⟨by change (s.toggled.cursorX+255) % 256 < 80; omega,hy⟩
  · obtain ⟨r,hr,hin⟩ := endOfRow_ends (n := scanRounds)
      (s := { s.toggled with cursorY := (s.toggled.cursorY+255) % 256 })
      ⟨hx,by change (s.toggled.cursorY+255) % 256 < 25; omega⟩
      (by rw [scanRounds_eq]; omega)
    rw [hr]
    exact hin.finished
  · exact Inside.finished (s := s.toggled) ⟨hx,hy⟩

theorem Bounded.cursorRight (h : s.Bounded) : ∃ t, s.cursorRight = some t ∧ t.Bounded := by
  have ht := h.toInside.toggled
  rw [Screen.cursorRight,toggleCursors_eq h.toInside,Option.bind_some]
  obtain ⟨w,hw,hright⟩ : ∃ w, (if s.toggled.cursorX = width-1 then some true
      else (s.toggled.load s.toggled.cursorY s.toggled.cursorX).map (fun c => decide (c.ch = 0))) =
        some w ∧ (w = false → s.toggled.cursorX < 79) := by
    by_cases hlast : s.toggled.cursorX = width-1
    · exact ⟨true,if_pos hlast,fun h => by cases h⟩
    · refine ⟨_,by rw [if_neg hlast,load_cursor ht,Option.map_some],fun _ => ?_⟩
      have := ht.x
      simp only [width] at hlast
      omega
  rw [hw,Option.bind_some]
  obtain ⟨hx,hy⟩ := ht
  apply Inside.finished
  cases w with
  | true =>
    simp only [if_true,height]
    split_ifs with hrow
    · exact ⟨by change 0 < 80; omega,by change (s.toggled.cursorY+1) % 256 < 25; omega⟩
    · exact ⟨hx,hy⟩
  | false =>
    have hlt := hright rfl
    exact ⟨by change (s.toggled.cursorX+1) % 256 < 80; omega,hy⟩

theorem Bounded.clearScreen (h : s.Bounded) : ∃ t, s.clearScreen = some t ∧ t.Bounded := by
  rw [Screen.clearScreen,toggleCursors_eq h.toInside,Option.bind_some]
  exact Inside.finished (s := { s.toggled with
    video := fun i => if i < width*height then ⟨0,s.toggled.defaultStyle⟩ else s.toggled.video i
    cursorX := 0
    cursorY := 0 }) ⟨by change 0 < 80; omega,by change 0 < 25; omega⟩

theorem Bounded.blinkCursor (h : s.Bounded) : ∃ t, s.blinkCursor = some t ∧ t.Bounded := by
  rw [Screen.blinkCursor,invert_eq h.toInside]
  exact ⟨_,rfl,⟨h.x,h.y⟩,h.videoX,h.videoY⟩

/-- The positions that pass the test of `printCharAtPos` and are not on the screen. -/
def Behind (posX posY : ℤ) : Prop :=
  (posX = width ∧ 0 ≤ posY ∧ posY ≤ height) ∨ (posY = height ∧ 0 ≤ posX ∧ posX ≤ width)

theorem printCharAtPos_isSome {posX posY : ℤ} :
    (s.printCharAtPos ch posX posY).isSome ↔ ¬ Behind posX posY := by
  unfold Screen.printCharAtPos Behind
  split_ifs with hout
  · simp only [Option.isSome_some,true_iff,width,height]
    simp only [width,height] at hout
    omega
  · rw [store,Option.isSome_map,cellIndex]
    simp only [width,height] at hout ⊢
    split_ifs with hin
    · simp only [Option.isSome_some,true_iff]
      omega
    · simp only [Option.isSome_none,Bool.false_eq_true,false_iff,not_not]
      omega

theorem Bounded.printCharAtPos {posX posY : ℤ} (h : s.Bounded)
    (ht : s.printCharAtPos ch posX posY = some t) : t.Bounded := by
  unfold Screen.printCharAtPos at ht
  split_ifs at ht with hout
  · obtain rfl := Option.some.inj ht
    exact h
  · obtain ⟨i,-,rfl⟩ := Option.map_eq_some_iff.mp ht
    exact ⟨⟨h.x,h.y⟩,h.videoX,h.videoY⟩

/-! ### Runs -/

inductive ScreenCall
  | printc (ch : UInt8)
  | printcWithStyle (ch style : UInt8)
  | newLine
  | backspace
  | cursorLeft
  | cursorRight
  | clearScreen
  | blinkCursor
  | printCharAtPos (ch : UInt8) (posX posY : ℤ)

def step (s : Screen) : ScreenCall → Option Screen
  | .printc ch => s.printc ch
  | .printcWithStyle ch style => s.printcWithStyle ch style
  | .newLine => s.newLine
  | .backspace => s.backspace
  | .cursorLeft => s.cursorLeft
  | .cursorRight => s.cursorRight
  | .clearScreen => s.clearScreen
  | .blinkCursor => s.blinkCursor
  | .printCharAtPos ch posX posY => s.printCharAtPos ch posX posY

def initial (video : ℕ → Cell) : Screen where
  video
  cursorX := 0
  cursorY := 0
  videoX := 0
  videoY := 0
  cursorVisible := false
  defaultStyle := 7

theorem initial_bounded (video : ℕ → Cell) : (initial video).Bounded :=
  ⟨⟨Nat.zero_lt_succ _,Nat.zero_lt_succ _⟩,Nat.zero_lt_succ _,Nat.zero_lt_succ _⟩

/-- No position right behind the screen is asked for. -/
def Placed : Screen → ScreenCall → Prop
  | _, .printCharAtPos _ posX posY => ¬ Behind posX posY
  | _, _ => True

theorem Bounded.step {l : ScreenCall} (h : s.Bounded) (hl : Placed s l) :
    ∃ t, s.step l = some t ∧ t.Bounded := by
  cases l with
  | printc ch => exact h.printcWithStyle
  | printcWithStyle ch style => exact h.printcWithStyle
  | newLine => exact h.newLine
  | backspace => exact h.backspace
  | cursorLeft => exact h.cursorLeft
  | cursorRight => exact h.cursorRight
  | clearScreen => exact h.clearScreen
  | blinkCursor => exact h.blinkCursor
  | printCharAtPos ch posX posY =>
    obtain ⟨t,ht⟩ := Option.isSome_iff_exists.mp (printCharAtPos_isSome.mpr hl)
    exact ⟨t,ht,h.printCharAtPos ht⟩

theorem placed_of_step {l : ScreenCall} (ht : s.step l = some t) : Placed s l := by
  cases l with
  | printCharAtPos ch posX posY =>
    exact printCharAtPos_isSome.mp (Option.isSome_iff_exists.mpr ⟨t,ht⟩)
  | _ => trivial

/-- Over every run of the terminal's operations from any text, each operation ends and stays
on the screen with its accesses and its cursor exactly if no position right behind the screen
is asked for. -/
theorem screen_bounds (video : ℕ → Cell) (ls : List ScreenCall) :
    ((∃ s, Runs.run step (initial video) ls = some s) ∧
      Runs.Always step Inside (initial video) ls) ↔ Runs.Along step Placed (initial video) ls := by
  apply Runs.possible_always_iff_along (I := Bounded) (fun s hs => hs.toInside)
  · exact fun s l hs hl => hs.step hl
  · exact fun s l t _ ht _ => placed_of_step ht
  · exact initial_bounded video

/-- A character in the first row and column 80 is outside. -/
theorem not_screen_bounds :
    ∃ ls, ¬ ∃ s, Runs.run step (initial (fun _ => ⟨0,7⟩)) ls = some s := by
  refine ⟨[.printCharAtPos 65 80 0],fun h => ?_⟩
  obtain ⟨s,hs⟩ := h
  have hnone : Runs.run step (initial (fun _ => ⟨0,7⟩)) [.printCharAtPos 65 80 0] = none := rfl
  rw [hnone] at hs
  cases hs

end ComplexOS.Screen
