import ComplexOS.Terminal.Screen

/-! # What `printChar` does to the text

The screen read as one line of 2000 cells: the text behind the cursor moves on by one
cell up to the first blank, and the character goes in before it.
-/
namespace ComplexOS.Screen
variable {s s' : Screen} {i j k n m : ℕ} {p : ℤ} {c : Cell} {ch style : UInt8}

structure Synced (s : Screen) : Prop where
  x : s.videoX = s.cursorX
  y : s.videoY = s.cursorY

structure FirstBlank (s : Screen) (n : ℕ) : Prop where
  behind : s.cell ≤ n
  inside : n < 2000
  blank : (s.video n).ch = 0
  text : ∀ i, s.cell ≤ i → i < n → (s.video i).ch ≠ 0

def Full (s : Screen) : Prop := ∀ i, s.cell ≤ i → i < 2000 → (s.video i).ch ≠ 0

def inserted (s : Screen) (k n : ℕ) (c : Cell) : Screen :=
  { s with video := fun i =>
      if i = k then c else if k < i ∧ i ≤ n then s.video (i-1) else s.video i }

def placed (s : Screen) (i : ℕ) : Screen :=
  { s with cursorX := i % 80, cursorY := i/80, videoX := i % 80, videoY := i/80 }

/-! ### The search -/

theorem findBlank_blank (hi : i < 2000) (h : (s.video i).ch = 0) :
    findBlank (n+1) (col i) (row i) s = some (some (col i,row i),s) := by
  rw [findBlank,load_at hi,Option.bind_some,if_neg (not_not.mpr h)]

theorem findBlank_text (hi : i+1 < 2000) (h : (s.video i).ch ≠ 0) :
    findBlank (n+1) (col i) (row i) s = findBlank n (col (i+1)) (row (i+1)) s := by
  rw [findBlank,load_at (by omega),Option.bind_some,if_pos h]
  by_cases hw : (i+1) % 80 = 0
  · obtain ⟨hnext,hcol⟩ := col_wrap hw
    have hrow : row i ≠ (height:ℤ)-1 := by
      unfold row height
      omega
    rw [if_pos (by rw [hcol]; rfl),if_neg hrow,hnext,row_wrap hw]
  · have hcol : col i+1 ≠ width := by
      unfold col width
      omega
    rw [if_neg hcol,col_succ hw,row_succ hw]

theorem findBlank_last (h : (s.video 1999).ch ≠ 0) :
    findBlank (n+1) (col 1999) (row 1999) s =
      if s.cursorY = 0 then some (none,s)
      else findBlank n (col 1920) (row 1920)
        { s.shiftScreen with cursorY := (s.cursorY+255) % 256 } := by
  rw [findBlank,load_at (by omega),Option.bind_some,if_pos h]
  rfl

theorem findBlank_run (hij : i ≤ j) (hj : j < 2000)
    (h : ∀ m, i ≤ m → m < j → (s.video m).ch ≠ 0) :
    findBlank (j-i+n) (col i) (row i) s = findBlank n (col j) (row j) s := by
  induction j, hij using Nat.le_induction generalizing n with
  | base => rw [Nat.sub_self,Nat.zero_add]
  | succ j hij ih =>
    have hfuel : j+1-i+n = j-i+(n+1) := by omega
    rw [hfuel,ih (by omega) (fun m hm hmj => h m hm (by omega)),
      findBlank_text hj (h j hij (by omega))]

theorem findBlank_first (hs : s.Inside) (hn : s.FirstBlank n) :
    findBlank scanRounds s.cursorX s.cursorY s = some (some (col n,row n),s) := by
  have hlt := hn.inside
  have hle := hn.behind
  have hfuel : scanRounds = n-s.cell+(2000-(n-s.cell)+1) := by
    rw [scanRounds_eq]
    omega
  rw [hfuel,← hs.col_cell,← hs.row_cell,findBlank_run hle hlt hn.text,findBlank_blank hlt hn.blank]

/-- A full rest of the screen makes room with a scroll, if there is a row to give. -/
theorem findBlank_full (hs : s.Inside) (hf : s.Full) :
    findBlank scanRounds s.cursorX s.cursorY s =
      if s.cursorY = 0 then some (none,s)
      else some (some (col 1920,row 1920),
        { s.shiftScreen with cursorY := (s.cursorY+255) % 256 }) := by
  have hlt := hs.cell_lt
  by_cases hrow : s.cursorY = 0
  · have hfuel : scanRounds = 1999-s.cell+(2000-(1999-s.cell)+1) := by
      rw [scanRounds_eq]
      omega
    rw [hfuel,← hs.col_cell,← hs.row_cell,
      findBlank_run (by omega) (by omega) (fun m hm hm' => hf m hm (by omega)),
      findBlank_last (hf 1999 (by omega) (by omega)),if_pos hrow,if_pos hrow]
  · have hcell : 80 ≤ s.cell := by
      unfold cell
      omega
    have hfuel : scanRounds = 1999-s.cell+(2000-(1999-s.cell)-1+1+1) := by
      rw [scanRounds_eq]
      omega
    have hblank : (({ s.shiftScreen with cursorY := (s.cursorY+255) % 256 } : Screen).video
        1920).ch = 0 := by
      change (s.shiftScreen.video 1920).ch = 0
      rw [shiftScreen_last (by omega) (by omega)]
    rw [hfuel,← hs.col_cell,← hs.row_cell,
      findBlank_run (by omega) (by omega) (fun m hm hm' => hf m hm (by omega)),
      findBlank_last (hf 1999 (by omega) (by omega)),if_neg hrow,if_neg hrow,
      findBlank_blank (by omega) hblank]

/-! ### The move -/

def opened (s : Screen) (i : ℕ) : Screen :=
  { s with video := fun j => if s.cell < j ∧ j ≤ i then s.video (j-1) else s.video j }

theorem opened_cell : s.opened s.cell = s := by
  have hvideo : (fun j => if s.cell < j ∧ j ≤ s.cell then s.video (j-1) else s.video j) =
      s.video := by
    funext j
    rw [if_neg (by omega)]
  exact congrArg (fun v => { s with video := v }) hvideo

theorem moveCells_spec (hs : s.Inside) (hle : s.cell ≤ i) (hi : i < 2000) (hn : i-s.cell < n)
    (p : ℤ) : moveCells n (col i) (row i) p s =
      some (if i = s.cell then p else s.cursorX,s.opened i) := by
  induction n generalizing i p s with
  | zero => omega
  | succ n ih =>
    rw [moveCells]
    by_cases hc : i = s.cell
    · have hstop : ¬ (col i ≠ s.cursorX ∨ row i ≠ s.cursorY) := by
        rw [hc,hs.col_cell,hs.row_cell]
        simp
      rw [if_neg hstop,if_pos hc,hc,opened_cell]
    obtain ⟨i,rfl⟩ : ∃ j, i = j+1 := ⟨i-1,by omega⟩
    have hgo : col (i+1) ≠ s.cursorX ∨ row (i+1) ≠ s.cursorY := by
      obtain ⟨hx,hy⟩ := hs
      unfold col row
      unfold cell at hc
      omega
    have hx : (if col (i+1)-1 < 0 then (width:ℤ)-1 else col (i+1)-1) = col i := by
      unfold col width
      split_ifs <;> omega
    have hy : (if col (i+1)-1 < 0 then row (i+1)-1 else row (i+1)) = row i := by
      unfold col row
      split_ifs <;> omega
    let t : Screen := { s with video := Function.update s.video (i+1) (s.video i) }
    have hrec := ih (s := t) (i := i) ⟨hs.x,hs.y⟩ (by change s.cell ≤ i; omega) (by omega)
      (by change i-s.cell < n; omega) (col i)
    have hcell : t.cell = s.cell := rfl
    have hopen : t.opened i = s.opened (i+1) := by
      have hvideo : (t.opened i).video = (s.opened (i+1)).video := by
        funext j
        simp only [opened,hcell]
        by_cases hj : j = i+1
        · subst hj
          rw [if_neg (by omega),if_pos (by omega)]
          exact Function.update_self _ _ _
        · split_ifs with h1 h2 h2
          · exact Function.update_of_ne (by omega) _ _
          · omega
          · omega
          · exact Function.update_of_ne hj _ _
      exact congrArg (fun v => { s with video := v }) hvideo
    rw [if_pos hgo,if_neg hc]
    simp only [hx,hy]
    rw [load_at (by omega),Option.bind_some,store_at (by omega),Option.bind_some,hrec,hcell,hopen]
    by_cases hlast : i = s.cell
    · rw [if_pos hlast,hlast,hs.col_cell]
    · rw [if_neg hlast]

/-! ### The whole call -/

theorem store_opened (hs : s.Inside) (c : Cell) :
    (s.opened n).store (s.opened n).cursorY (s.opened n).cursorX c =
      some (s.inserted s.cell n c) := by
  have hopen : (s.opened n).Inside := ⟨hs.x,hs.y⟩
  have hcell : (s.opened n).cell = s.cell := rfl
  rw [store_cursor hopen,hcell]
  have hvideo : Function.update (s.opened n).video s.cell c = (s.inserted s.cell n c).video := by
    funext i
    simp only [opened,inserted,Function.update_apply]
  exact congrArg (fun v => some { s with video := v }) hvideo

/-- The second write repeats the first. -/
theorem writeAtCursor_inserted (hs : s.Inside) (hv : s.Synced) (hch : ch ≠ 0) :
    (s.inserted s.cell n ⟨ch,style⟩).writeAtCursor ch style =
      some (s.inserted s.cell n ⟨ch,style⟩) := by
  have hin : (s.inserted s.cell n ⟨ch,style⟩).Inside := ⟨hs.x,hs.y⟩
  have hx : (s.inserted s.cell n ⟨ch,style⟩).videoX = (s.inserted s.cell n ⟨ch,style⟩).cursorX := hv.x
  have hy : (s.inserted s.cell n ⟨ch,style⟩).videoY = (s.inserted s.cell n ⟨ch,style⟩).cursorY := hv.y
  have hput : (s.inserted s.cell n ⟨ch,style⟩).video s.cell = ⟨ch,style⟩ := if_pos rfl
  have hcell : (s.inserted s.cell n ⟨ch,style⟩).cell = s.cell := rfl
  rw [writeAtCursor,hx,hy,store_cursor hin,if_neg hch,hcell]
  have hvideo : Function.update (s.inserted s.cell n ⟨ch,style⟩).video s.cell ⟨ch,style⟩ =
      (s.inserted s.cell n ⟨ch,style⟩).video := Function.update_eq_self_iff.mpr hput.symm
  exact congrArg (fun v => some { s with video := v }) hvideo

/-- After the search the character is inserted and the cursor goes on. -/
theorem printChar_found {t : Screen} (ht : t.Inside) (hn : n < 2000) (hle : t.cell ≤ n)
    (hv : t.cell = n → t.Synced) (hch : ch ≠ 0)
    (hf : findBlank scanRounds s.cursorX s.cursorY s = some (some (col n,row n),t)) :
    s.printChar ch style = some (t.inserted t.cell n ⟨ch,style⟩).incrementCursor := by
  have hmove := moveCells_spec (n := scanRounds) ht hle hn (by rw [scanRounds_eq]; omega) (-1)
  rw [printChar,hf,Option.bind_some]
  dsimp only
  rw [hmove,Option.bind_some]
  dsimp only
  rw [store_opened ht,Option.bind_some]
  by_cases hc : n = t.cell
  · rw [if_pos hc,if_pos rfl,writeAtCursor_inserted ht (hv hc.symm) hch,Option.map_some]
  · have hx : ¬ ((t.cursorX:ℤ) = -1) := by omega
    rw [if_neg hc,if_neg hx,Option.map_some]

/-- Before the last cell the cursors go on by one. -/
theorem incrementCursor_cell (hs : s.Inside) (hlt : s.cell < 1999) :
    s.incrementCursor = s.placed (s.cell+1) := by
  obtain ⟨hx,hy⟩ := hs
  unfold cell at hlt
  by_cases hlast : s.cursorX = 79
  · have hrow : ¬ (s.cursorY = 24) := by omega
    have hY : (s.cursorY+1) % 256 = (s.cell+1)/80 := by
      unfold cell
      omega
    have hX : 0 = (s.cell+1) % 80 := by
      unfold cell
      omega
    simp [incrementCursor,nextCell,newRow,updateCursor,placed,hlast,hrow,← hX,← hY]
  · have hX : (s.cursorX+1) % 256 = (s.cell+1) % 80 := by
      unfold cell
      omega
    have hY : s.cursorY = (s.cell+1)/80 := by
      unfold cell
      omega
    simp [incrementCursor,nextCell,updateCursor,placed,hlast,← hX,← hY]

/-- On the last cell they go to the start of the row, which a scroll has cleared. -/
theorem incrementCursor_last (hs : s.Inside) (hlast : s.cell = 1999) :
    s.incrementCursor = s.shiftScreen.placed 1920 := by
  have hnext := hs.nextCell_last hlast
  obtain ⟨hx,hy⟩ := hs
  unfold cell at hlast
  have hY : s.cursorY = 24 := by omega
  simp [incrementCursor,hnext,updateCursor,placed,hY]

def scrolledUp (s : Screen) : Screen := { s.shiftScreen with cursorY := s.cursorY-1 }

/-- `printChar` inserts the character at the cursor: before the first blank from there on,
on the last cell with a scroll behind it. Where there is no blank the row above the screen
is given up for it, and on the first row nothing happens. -/
theorem printChar_insertion (hs : s.Inside) (hv : s.Synced) (hch : ch ≠ 0) (style : UInt8) :
    (∀ n, s.FirstBlank n → s.printChar ch style = some (
      if s.cell < 1999 then (s.inserted s.cell n ⟨ch,style⟩).placed (s.cell+1)
      else (s.inserted s.cell n ⟨ch,style⟩).shiftScreen.placed 1920)) ∧
    (s.Full → s.cursorY ≠ 0 → s.scrolledUp.FirstBlank 1920 ∧ s.printChar ch style = some
      ((s.scrolledUp.inserted (s.cell-80) 1920 ⟨ch,style⟩).placed (s.cell-80+1))) ∧
    (s.Full → s.cursorY = 0 → s.printChar ch style = some s) := by
  refine ⟨fun n hn => ?_,fun hf hrow => ?_,fun hf hrow => ?_⟩
  · rw [printChar_found hs hn.inside hn.behind (fun _ => hv) hch (findBlank_first hs hn)]
    have hin : (s.inserted s.cell n ⟨ch,style⟩).Inside := ⟨hs.x,hs.y⟩
    have hlt := hs.cell_lt
    split_ifs with hc
    · exact congrArg some (incrementCursor_cell hin hc)
    · exact congrArg some (incrementCursor_last hin (by change s.cell = 1999; omega))
  · obtain ⟨hx,hy⟩ := hs
    have hup : s.cursorY-1 = (s.cursorY+255) % 256 := by omega
    have hin : s.scrolledUp.Inside := ⟨hx,by change s.cursorY-1 < 25; omega⟩
    have hcell : s.scrolledUp.cell = s.cell-80 := by
      change (s.cursorY-1)*80+s.cursorX = s.cursorY*80+s.cursorX-80
      omega
    have hcell' : 80 ≤ s.cell ∧ s.cell < 2000 := by
      unfold cell
      omega
    have hf' := findBlank_full ⟨hx,hy⟩ hf
    rw [if_neg hrow,← hup] at hf'
    constructor
    · refine ⟨by omega,by omega,?_,fun i hi hi' => ?_⟩
      · change (s.shiftScreen.video 1920).ch = 0
        rw [shiftScreen_last (by omega) (by omega)]
      · change (s.shiftScreen.video i).ch ≠ 0
        rw [shiftScreen_up hi']
        exact hf _ (by omega) (by omega)
    · rw [printChar_found hin (by omega) (by omega) (fun he => by omega) hch hf',hcell]
      have hin' : (s.scrolledUp.inserted (s.cell-80) 1920 ⟨ch,style⟩).Inside := ⟨hin.x,hin.y⟩
      have hlt : (s.scrolledUp.inserted (s.cell-80) 1920 ⟨ch,style⟩).cell < 1999 := by
        change s.scrolledUp.cell < 1999
        omega
      rw [incrementCursor_cell hin' hlt]
      change some ((s.scrolledUp.inserted (s.cell-80) 1920 ⟨ch,style⟩).placed
        (s.scrolledUp.cell+1)) = _
      rw [hcell]
  · have hf' := findBlank_full hs hf
    rw [if_pos hrow] at hf'
    rw [printChar,hf']
    rfl

/-- Text over the end of the first row, with the cursors on its first character. -/
def wrapped : Screen where
  video := fun i => if i = 79 ∨ i = 80 then ⟨97,7⟩ else ⟨0,7⟩
  cursorX := 79
  cursorY := 0
  videoX := 79
  videoY := 0
  cursorVisible := false
  defaultStyle := 7

theorem wrapped_inside : wrapped.Inside := ⟨by decide,by decide⟩

theorem wrapped_firstBlank : wrapped.FirstBlank 81 := by
  refine ⟨by decide,by decide,rfl,fun i hi hi' => ?_⟩
  have hcell : wrapped.cell = 79 := rfl
  have hor : i = 79 ∨ i = 80 := by omega
  simp [wrapped,hor]

theorem printChar_insertion_wrapped : wrapped.printChar 65 7 =
    some ((wrapped.inserted 79 81 ⟨65,7⟩).placed 80) :=
  (printChar_insertion wrapped_inside ⟨rfl,rfl⟩ (by decide) 7).1 81 wrapped_firstBlank

end ComplexOS.Screen
