import ComplexOS.Terminal.Deletion
import ComplexOS.Terminal.LineDiscipline

/-! # The text of the line on the screen

A line stands from a cell `base` on, with the cursor inside it and nothing behind it. The row in
which it starts has text up to it. Where the line comes to the end of the screen all rows go up,
and with them the cell where it starts.
-/
namespace ComplexOS.Screen
variable {s t r : Screen} {base k n : ℕ} {xs ys cs : List UInt8} {c : Cell} {ch : UInt8}

structure Text (s : Screen) (base : ℕ) (cs : List UInt8) : Prop where
  fits : base+cs.length ≤ 2000
  shown : ∀ j ch, cs[j]? = some ch → (s.video (base+j)).ch = ch
  blank : ∀ i, base+cs.length ≤ i → i < 2000 → (s.video i).ch = 0
  prompt : ∀ i, base/80*80 ≤ i → i < base → (s.video i).ch ≠ 0

/-- The line, with the cursors where the editor has its own. -/
structure Shows (s : Screen) (base : ℕ) (e : Editor) : Prop extends Text s base e.line where
  inside : s.Inside
  synced : s.Synced
  cell : s.cell = base+e.before.length
  nonzero : ∀ ch ∈ e.line, ch ≠ 0

/-! ### Cells -/

theorem Text.congr (h : Text s base cs) (hch : ∀ i, (t.video i).ch = (s.video i).ch) :
    Text t base cs :=
  ⟨h.fits,fun j ch hj => (hch _).trans (h.shown j ch hj),
    fun i hi hi' => (hch i).trans (h.blank i hi hi'),fun i hi hi' => by
      rw [hch]
      exact h.prompt i hi hi'⟩

theorem Text.ne_zero (h : Text s base cs) (hz : ∀ ch ∈ cs, ch ≠ 0) (hk : base ≤ k)
    (hk' : k < base+cs.length) : (s.video k).ch ≠ 0 := by
  have hlt : k-base < cs.length := by omega
  have hline := h.shown (k-base) cs[k-base] (List.getElem?_eq_getElem hlt)
  rw [show base+(k-base) = k by omega] at hline
  rw [hline]
  exact hz _ (List.getElem_mem hlt)

/-- From the start of the row to the end of the line there is no blank. -/
theorem Text.ne_zero_row (h : Text s base cs) (hz : ∀ ch ∈ cs, ch ≠ 0) (hk : base/80*80 ≤ k)
    (hk' : k < base+cs.length) : (s.video k).ch ≠ 0 := by
  by_cases hb : k < base
  · exact h.prompt k hk hb
  · exact h.ne_zero hz (by omega) hk'

/-- A scroll. -/
theorem Text.shiftScreen (h : Text s base cs) (hb : 80 ≤ base) :
    Text s.shiftScreen (base-80) cs := by
  have hfits := h.fits
  have hmove : ∀ i, i < 1920 → (s.shiftScreen.video i).ch = (s.video (i+80)).ch :=
    fun i hi => by rw [shiftScreen_up hi]
  refine ⟨by omega,fun j ch hj => ?_,fun i hi hi' => ?_,fun i hi hi' => ?_⟩
  · have hlt : j < cs.length := (List.getElem?_eq_some_iff.mp hj).1
    rw [hmove _ (by omega),show base-80+j+80 = base+j by omega]
    exact h.shown j ch hj
  · by_cases hlast : i < 1920
    · rw [hmove i hlast]
      exact h.blank _ (by omega) (by omega)
    · rw [shiftScreen_last (by omega) hi']
  · rw [hmove i (by omega)]
    exact h.prompt _ (by omega) (by omega)

theorem Text.inserted (h : Text s base (xs++ys)) (hlt : base+(xs++ys).length < 2000) :
    Text (s.inserted (base+xs.length) (base+(xs++ys).length) c) base (xs++c.ch::ys) := by
  rw [List.length_append] at hlt ⊢
  have hvideo : ∀ i, ((s.inserted (base+xs.length) (base+(xs.length+ys.length)) c).video i).ch =
      if i = base+xs.length then c.ch
      else if base+xs.length < i ∧ i ≤ base+(xs.length+ys.length) then (s.video (i-1)).ch
      else (s.video i).ch := by
    intro i
    change (if i = base+xs.length then c
      else if base+xs.length < i ∧ i ≤ base+(xs.length+ys.length) then s.video (i-1)
      else s.video i).ch = _
    split_ifs <;> rfl
  refine ⟨by simp only [List.length_append,List.length_cons]; omega,fun j ch hj => ?_,
    fun i hi hi' => ?_,fun i hi hi' => ?_⟩
  · rw [hvideo]
    rcases Nat.lt_trichotomy j xs.length with hlow | rfl | hhigh
    · rw [if_neg (by omega),if_neg (by omega)]
      rw [List.getElem?_append_left hlow] at hj
      exact h.shown j ch (by rw [List.getElem?_append_left hlow]; exact hj)
    · rw [if_pos rfl]
      simpa using hj
    · obtain ⟨m,rfl⟩ : ∃ m, j = m+1 := ⟨j-1,by omega⟩
      rw [List.getElem?_append_right (by omega),Nat.succ_sub (by omega),
        List.getElem?_cons_succ] at hj
      have hm := (List.getElem?_eq_some_iff.mp hj).1
      rw [if_neg (by omega),if_pos (by omega),show base+(m+1)-1 = base+m by omega]
      exact h.shown m ch (by rw [List.getElem?_append_right (by omega)]; exact hj)
  · simp only [List.length_append,List.length_cons] at hi
    rw [hvideo,if_neg (by omega),if_neg (by omega)]
    exact h.blank i (by rw [List.length_append]; omega) hi'
  · rw [hvideo,if_neg (by omega),if_neg (by omega)]
    exact h.prompt i hi hi'

/-! ### The cursor -/

theorem cell_placed : (s.placed k).cell = k := by
  change k/80*80+k % 80 = k
  omega

theorem inside_placed (hk : k < 2000) : (s.placed k).Inside := by
  constructor
  · change k % 80 < 80
    omega
  · change k/80 < 25
    omega

variable {e : Editor} {committed before behind : List UInt8}

theorem Shows.toggled (h : s.Shows base e) : s.toggled.Shows base e where
  toText := h.toText.congr (fun _ => toggled_ch)
  inside := h.inside.toggled
  synced := ⟨by simpa using h.synced.x,by simpa using h.synced.y⟩
  cell := toggled_cell.trans h.cell
  nonzero := h.nonzero

/-- What an operation leaves behind that ends with the cursor on a cell of the line. -/
theorem Text.finished (h : Text s base e.line) (hin : s.Inside)
    (hcell : s.cell = base+e.before.length) (hz : ∀ ch ∈ e.line, ch ≠ 0) :
    ∃ t, (s.updateCursor s.cursorX s.cursorY).toggleCursors = some t ∧ t.Shows base e := by
  have hplain : (s.updateCursor s.cursorX s.cursorY).Shows base e :=
    ⟨⟨h.fits,h.shown,h.blank,h.prompt⟩,⟨hin.x,hin.y⟩,⟨rfl,rfl⟩,hcell,hz⟩
  exact ⟨_,toggleCursors_eq hplain.inside,hplain.toggled⟩

theorem Shows.blinkCursor (h : s.Shows base e) : ∃ t, s.blinkCursor = some t ∧ t.Shows base e := by
  refine ⟨_,by rw [Screen.blinkCursor,invert_eq h.inside,Option.map_some],?_⟩
  have hch : ∀ i, (s.inverted.video i).ch = (s.video i).ch := by
    intro i
    by_cases hi : i = s.cell
    · subst hi
      simp [Screen.inverted]
    · simp [Screen.inverted,hi]
  have htext : Text s.inverted base e.line := h.toText.congr hch
  exact ⟨⟨htext.fits,htext.shown,htext.blank,htext.prompt⟩,⟨h.inside.x,h.inside.y⟩,
    ⟨h.synced.x,h.synced.y⟩,h.cell,h.nonzero⟩

/-! ### A character -/

theorem length_line : e.line.length = e.before.length+e.behind.length := by
  simp [Editor.line]

/-- The search ends right behind the line, which has gone up by a row if it came to the end of
the screen. -/
theorem Shows.findBlank (h : s.Shows base e)
    (hroom : (s.cell < 1999 ∧ base+e.line.length < 2000) ∨ 80 ≤ base) :
    ∃ t b, findBlank scanRounds s.cursorX s.cursorY s =
        some (some (col (b+e.line.length),row (b+e.line.length)),t) ∧
      Text t b e.line ∧ t.Inside ∧ t.cell = b+e.before.length ∧ b+e.line.length < 2000 ∧
        (t.cell = b+e.line.length → t.Synced) ∧ (t.cell < 1999 ∨ 80 ≤ b) := by
  have hlength := length_line (e := e)
  have hcell := h.cell
  by_cases hfull : base+e.line.length < 2000
  · have hfirst : s.FirstBlank (base+e.line.length) :=
      ⟨by omega,hfull,h.blank _ le_rfl hfull,
        fun i hi hi' => h.toText.ne_zero h.nonzero (by omega) hi'⟩
    exact ⟨s,base,findBlank_first h.inside hfirst,h.toText,h.inside,hcell,hfull,
      fun _ => h.synced,hroom.imp_left And.left⟩
  · have hb : 80 ≤ base := by omega
    have hfits := h.fits
    have hlt := h.inside.cell_lt
    have hrow : s.cursorY ≠ 0 := by
      have hx := h.inside.x
      have hpos : 80 ≤ s.cell := by omega
      unfold Screen.cell at hpos
      omega
    have hnone : s.Full := fun i hi hi' => h.toText.ne_zero h.nonzero (by omega) (by omega)
    have hfind := findBlank_full h.inside hnone
    rw [if_neg hrow,show (s.cursorY+255) % 256 = s.cursorY-1 by have := h.inside.y; omega] at hfind
    have hup : (s.scrolledUp).cell = s.cell-80 := by
      change (s.cursorY-1)*80+s.cursorX = s.cursorY*80+s.cursorX-80
      omega
    have hend : base-80+e.line.length = 1920 := by omega
    refine ⟨s.scrolledUp,base-80,by rw [hend]; exact hfind,?_,?_,by omega,by omega,fun he => ?_,
      Or.inl (by omega)⟩
    · exact (h.toText.shiftScreen hb).congr fun _ => rfl
    · exact ⟨h.inside.x,Nat.lt_of_le_of_lt (Nat.sub_le _ _) h.inside.y⟩
    · omega

theorem Editor.line_press (hback : ch ≠ 8) (henter : ch ≠ 10) :
    (e.press ch).line = e.before.reverse++ch::e.behind := by
  rw [Console.Editor.press_char hback henter]
  simp [Editor.line]

theorem Shows.printChar (h : s.Shows base e) (h0 : ch ≠ 0) (h8 : ch ≠ 8) (h10 : ch ≠ 10)
    (hroom : (s.cell < 1999 ∧ base+e.line.length < 2000) ∨ 80 ≤ base) (style : UInt8) :
    ∃ t b, s.printChar ch style = some t ∧ t.Shows b (e.press ch) := by
  obtain ⟨t,b,hfind,htext,hin,hcell,hlt,hsynced,hlow⟩ := h.findBlank hroom
  have hlength := length_line (e := e)
  have hz : ∀ x ∈ (e.press ch).line, x ≠ 0 := by
    intro x hx
    have hall := h.nonzero x
    rw [Editor.line_press h8 h10] at hx
    simp only [Editor.line,List.mem_append,List.mem_cons] at hall hx
    grind
  have hprint : s.printChar ch style =
      some (t.inserted t.cell (b+e.line.length) ⟨ch,style⟩).incrementCursor :=
    printChar_found hin hlt (by omega) hsynced h0 hfind
  have hins : Text (t.inserted t.cell (b+e.line.length) ⟨ch,style⟩) b (e.press ch).line := by
    have hput : Text (t.inserted (b+e.before.reverse.length) (b+e.line.length) ⟨ch,style⟩) b
        (e.before.reverse++ch::e.behind) := Text.inserted htext hlt
    rw [List.length_reverse,← hcell] at hput
    rw [Editor.line_press h8 h10]
    exact hput
  have hbefore : (e.press ch).before.length = e.before.length+1 := by
    rw [Console.Editor.press_char h8 h10]
    rfl
  have hin' : (t.inserted t.cell (b+e.line.length) ⟨ch,style⟩).Inside := ⟨hin.x,hin.y⟩
  by_cases hlast : t.cell < 1999
  · have hcalm := incrementCursor_cell hin' hlast
    refine ⟨_,b,hprint.trans (congrArg some hcalm),?_⟩
    refine ⟨hins.congr fun _ => rfl,inside_placed (by change t.cell+1 < 2000; omega),⟨rfl,rfl⟩,?_,hz⟩
    rw [cell_placed]
    change t.cell+1 = _
    omega
  · have hend : t.cell = 1999 := by
      have := hin.cell_lt
      omega
    have hscroll := incrementCursor_last hin' hend
    refine ⟨_,b-80,hprint.trans (congrArg some hscroll),?_⟩
    refine ⟨(hins.shiftScreen (by omega)).congr fun _ => rfl,inside_placed (by omega),⟨rfl,rfl⟩,?_,hz⟩
    rw [cell_placed]
    omega

theorem Shows.type (h : s.Shows base e) (h0 : ch ≠ 0) (h8 : ch ≠ 8) (h10 : ch ≠ 10)
    (hroom : (s.cell < 1999 ∧ base+e.line.length < 2000) ∨ 80 ≤ base) :
    ∃ t b, s.printc ch = some t ∧ t.Shows b (e.press ch) := by
  obtain ⟨t,b,ht,hshows⟩ := h.toggled.printChar h0 h8 h10 (by rw [toggled_cell]; exact hroom)
    s.defaultStyle
  refine ⟨t.toggled,b,?_,hshows.toggled⟩
  rw [printc,printcWithStyle,if_neg h8,if_neg h10,toggleCursors_eq h.inside,Option.bind_some,ht,
    Option.bind_some,toggleCursors_eq hshows.inside]

/-! ### A deletion -/

theorem Shows.delete (h : s.Shows base ⟨committed,ch::before,behind⟩) :
    ∃ t, s.printc 8 = some t ∧ t.Shows base ⟨committed,before,behind⟩ := by
  have hlength := length_line (e := ⟨committed,ch::before,behind⟩)
  have hcell := h.cell
  have hfits := h.fits
  have hlt := h.inside.cell_lt
  simp only [List.length_cons] at hlength hcell
  -- the cell that is blank afterwards
  obtain ⟨m,hm,hm',hend,hlow⟩ : ∃ m, base+before.length < m ∧ m < 2000 ∧
      (m = 1999 ∨ m = base+(before.length+1+behind.length)) ∧
        (m = base+(before.length+behind.length) ∨ m = base+(before.length+1+behind.length)) := by
    by_cases hfull : base+(before.length+1+behind.length) < 2000
    · exact ⟨_,by omega,hfull,Or.inr rfl,Or.inr rfl⟩
    · exact ⟨1999,by omega,by omega,Or.inl rfl,by omega⟩
  obtain ⟨r,hr,hx,hy,hsynced,hmoved,hblank,hkept⟩ := backspace_text (k := base+before.length) (m := m)
    h.inside (by omega) hm hm'
    (fun j hj hjm => h.toText.ne_zero h.nonzero (by omega) (by omega))
    (by
      rcases hend with he | he
      · exact Or.inl he
      · exact Or.inr (h.blank m (by omega) hm'))
  have hold : Editor.line ⟨committed,ch::before,behind⟩ = before.reverse++ch::behind := by
    simp [Editor.line]
  have hnew : Editor.line ⟨committed,before,behind⟩ = before.reverse++behind := rfl
  have hcell' : r.cell = base+before.length := by
    unfold Screen.cell
    omega
  refine ⟨r,by rw [printc,printcWithStyle,if_pos rfl]; exact hr,⟨?_,?_,?_,?_⟩,?_,hsynced,hcell',?_⟩
  · rw [hnew,List.length_append,List.length_reverse]
    omega
  · intro j x hj
    rw [hnew] at hj
    have hjlt := (List.getElem?_eq_some_iff.mp hj).1
    rw [List.length_append,List.length_reverse] at hjlt
    by_cases hfront : j < before.length
    · rw [hkept _ (Or.inl (by omega))]
      refine h.shown j x ?_
      rw [List.getElem?_append_left (by simpa using hfront)] at hj
      rw [hold,List.getElem?_append_left (by simpa using hfront)]
      exact hj
    · rw [hmoved _ (by omega) (by omega)]
      refine h.shown (j+1) x ?_
      rw [List.getElem?_append_right (by simpa using hfront)] at hj
      rw [hold,List.getElem?_append_right (by simp; omega),List.length_reverse,
        Nat.succ_sub (by omega),List.getElem?_cons_succ]
      simpa using hj
  · intro i hi hi'
    rw [hnew,List.length_append,List.length_reverse] at hi
    by_cases him : i = m
    · rw [him,hblank]
    · by_cases hbelow : i < m
      · rw [hmoved i (by omega) hbelow]
        exact h.blank _ (by omega) (by omega)
      · rw [hkept _ (Or.inr (by omega))]
        exact h.blank i (by omega) hi'
  · intro i hi hi'
    rw [hkept _ (Or.inl (by omega))]
    exact h.prompt i hi hi'
  · constructor
    · omega
    · rw [hy]
      omega
  · intro x hx
    have hall := h.nonzero x
    simp only [Editor.line,List.reverse_cons,List.mem_append,List.mem_singleton] at hall hx
    grind

/-! ### Left and right -/

/-- A row without a blank is walked to its end. -/
theorem endOfRow_text (h : s.Inside) (hn : 79-s.cursorX < n)
    (htext : ∀ i, s.cell ≤ i → i < s.cursorY*80+79 → (s.video i).ch ≠ 0) :
    endOfRow n s = some { s with cursorX := 79 } := by
  induction n generalizing s with
  | zero => omega
  | succ n ih =>
    have hx := h.x
    rw [endOfRow]
    split_ifs with hlt
    · simp only [width] at hlt
      have hnext : (s.cursorX+1) % 256 = s.cursorX+1 := by omega
      rw [load_cursor h,Option.bind_some,if_pos (htext _ le_rfl (by unfold Screen.cell; omega)),hnext]
      refine ih ⟨by change s.cursorX+1 < 80; omega,h.y⟩ (by change 79-(s.cursorX+1) < n; omega) ?_
      intro i hi hi'
      change s.cursorY*80+(s.cursorX+1) ≤ i at hi
      exact htext i (by unfold Screen.cell; omega) hi'
    · have hend : s.cursorX = 79 := by
        simp only [width] at hlt
        omega
      rw [← hend]

theorem Shows.left (h : s.Shows base ⟨committed,ch::before,behind⟩) :
    ∃ t, s.cursorLeft = some t ∧ t.Shows base ⟨committed,before,ch::behind⟩ := by
  have ht := h.toggled
  have hcell := ht.cell
  obtain ⟨hx,hy⟩ := ht.inside
  have hlength := length_line (e := ⟨committed,ch::before,behind⟩)
  simp only [List.length_cons] at hcell hlength
  have hline : Editor.line ⟨committed,before,ch::behind⟩ =
      Editor.line ⟨committed,ch::before,behind⟩ := by
    simp [Editor.line]
  have hz : ∀ x ∈ Editor.line ⟨committed,before,ch::behind⟩, x ≠ 0 := by
    rw [hline]
    exact h.nonzero
  have hdone : ∀ u : Screen, u.video = s.toggled.video → u.cell = base+before.length → u.Inside →
      ∃ t, (u.updateCursor u.cursorX u.cursorY).toggleCursors = some t ∧
        t.Shows base ⟨committed,before,ch::behind⟩ := by
    intro u hu hc hin
    refine Text.finished ?_ hin hc hz
    rw [hline]
    exact ht.toText.congr fun i => by rw [hu]
  rw [Screen.cursorLeft,toggleCursors_eq h.inside,Option.bind_some]
  unfold Screen.cell at hcell
  by_cases hcol : s.toggled.cursorX > 0
  · have hback : (s.toggled.cursorX+255) % 256 = s.toggled.cursorX-1 := by omega
    rw [if_pos hcol,Option.bind_some,hback]
    exact hdone { s.toggled with cursorX := s.toggled.cursorX-1 } rfl
      (by change s.toggled.cursorY*80+(s.toggled.cursorX-1) = _; omega)
      ⟨by change s.toggled.cursorX-1 < 80; omega,hy⟩
  · have hrow : s.toggled.cursorY > 0 := by omega
    have hback : (s.toggled.cursorY+255) % 256 = s.toggled.cursorY-1 := by omega
    have hin : Inside { s.toggled with cursorY := s.toggled.cursorY-1 } :=
      ⟨hx,by change s.toggled.cursorY-1 < 25; omega⟩
    have hwalk := endOfRow_text (n := scanRounds) hin (by rw [scanRounds_eq]; omega)
      (fun i hi hi' => by
        change (s.toggled.cursorY-1)*80+s.toggled.cursorX ≤ i at hi
        change i < (s.toggled.cursorY-1)*80+79 at hi'
        exact ht.toText.ne_zero_row ht.nonzero (by omega) (by omega))
    rw [if_neg hcol,if_pos hrow,hback,hwalk]
    exact hdone { s.toggled with cursorX := 79, cursorY := s.toggled.cursorY-1 } rfl
      (by change (s.toggled.cursorY-1)*80+79 = _; omega)
      ⟨by change 79 < 80; omega,by change s.toggled.cursorY-1 < 25; omega⟩

theorem Shows.right (h : s.Shows base ⟨committed,before,ch::behind⟩) (hroom : s.cell < 1999) :
    ∃ t, s.cursorRight = some t ∧ t.Shows base ⟨committed,ch::before,behind⟩ := by
  have ht := h.toggled
  have hcell := ht.cell
  obtain ⟨hx,hy⟩ := ht.inside
  have hlength := length_line (e := ⟨committed,before,ch::behind⟩)
  simp only [List.length_cons] at hcell hlength
  have hline : Editor.line ⟨committed,ch::before,behind⟩ =
      Editor.line ⟨committed,before,ch::behind⟩ := by
    simp [Editor.line]
  have hz : ∀ x ∈ Editor.line ⟨committed,ch::before,behind⟩, x ≠ 0 := by
    rw [hline]
    exact h.nonzero
  have hdone : ∀ u : Screen, u.video = s.toggled.video → u.cell = base+(before.length+1) →
      u.Inside → ∃ t, (u.updateCursor u.cursorX u.cursorY).toggleCursors = some t ∧
        t.Shows base ⟨committed,ch::before,behind⟩ := by
    intro u hu hc hin
    refine Text.finished ?_ hin hc hz
    rw [hline]
    exact ht.toText.congr fun i => by rw [hu]
  have htext : (s.toggled.video s.toggled.cell).ch ≠ 0 :=
    ht.toText.ne_zero ht.nonzero (by omega) (by omega)
  rw [← toggled_cell (s := s)] at hroom
  rw [Screen.cursorRight,toggleCursors_eq h.inside,Option.bind_some]
  by_cases hcol : s.toggled.cursorX = width-1
  · rw [if_pos hcol,Option.bind_some]
    simp only [width] at hcol
    unfold Screen.cell at hroom hcell
    have hrow : s.toggled.cursorY < height-1 := by
      simp only [height]
      omega
    have hdown : (s.toggled.cursorY+1) % 256 = s.toggled.cursorY+1 := by omega
    dsimp only
    rw [if_pos rfl,if_pos hrow,hdown]
    exact hdone { s.toggled with cursorX := 0, cursorY := s.toggled.cursorY+1 } rfl
      (by change (s.toggled.cursorY+1)*80+0 = _; omega)
      ⟨by change 0 < 80; omega,by change s.toggled.cursorY+1 < 25; omega⟩
  · rw [if_neg hcol,load_cursor ht.inside,Option.map_some,Option.bind_some]
    simp only [width] at hcol
    unfold Screen.cell at hcell
    have hon : (s.toggled.cursorX+1) % 256 = s.toggled.cursorX+1 := by omega
    dsimp only
    rw [if_neg (by simpa using htext),hon]
    exact hdone { s.toggled with cursorX := s.toggled.cursorX+1 } rfl
      (by change s.toggled.cursorY*80+(s.toggled.cursorX+1) = _; omega)
      ⟨by change s.toggled.cursorX+1 < 80; omega,hy⟩

/-! ### A new line -/

theorem skipText_blank (h : s.Inside) (hch : (s.video s.cell).ch = 0) :
    skipText (n+1) s = some s := by
  rw [skipText,load_cursor h,Option.bind_some,if_neg (not_not.mpr hch)]

/-- The walk ends with nothing but blanks from the cursor on. -/
theorem skipText_text (h : s.Inside) (hk : s.cell ≤ k) (hn : k-s.cell < n)
    (htext : ∀ i, s.cell ≤ i → i < k → (s.video i).ch ≠ 0)
    (hblank : ∀ i, k ≤ i → i < 2000 → (s.video i).ch = 0) :
    ∃ t, skipText n s = some t ∧ t.Inside ∧ ∀ i, t.cell ≤ i → i < 2000 → (t.video i).ch = 0 := by
  induction n generalizing s with
  | zero => omega
  | succ n ih =>
    have hlt := h.cell_lt
    by_cases hat : s.cell = k
    · refine ⟨s,skipText_blank h (hblank _ hat.ge hlt),h,?_⟩
      rw [hat]
      exact hblank
    rw [skipText,load_cursor h,Option.bind_some,if_pos (htext _ le_rfl (by omega))]
    by_cases hlast : s.cell = 1999
    · obtain ⟨n,rfl⟩ := Nat.exists_eq_succ_of_ne_zero (by omega : n ≠ 0)
      have hnext := h.nextCell
      rw [h.nextCell_last hlast] at hnext ⊢
      have hcell : 1920 ≤ Screen.cell { s.shiftScreen with cursorX := 0 } := by
        change 1920 ≤ s.cursorY*80+0
        have := h.x
        unfold Screen.cell at hlast
        omega
      have hcleared : ∀ i, Screen.cell { s.shiftScreen with cursorX := 0 } ≤ i → i < 2000 →
          (s.shiftScreen.video i).ch = 0 := fun i hi hi' => by
        rw [shiftScreen_last (by omega) hi']
      exact ⟨_,skipText_blank hnext (hcleared _ le_rfl hnext.cell_lt),hnext,hcleared⟩
    · obtain ⟨hcell,hvideo⟩ := h.nextCell_cell (by omega)
      refine ih h.nextCell (by omega) (by omega) (fun i hi hi' => ?_) (fun i hi hi' => ?_)
      · rw [hvideo]
        exact htext i (by omega) hi'
      · rw [hvideo]
        exact hblank i hi hi'

/-- A new row is empty where nothing stands behind the cursor. -/
theorem newRow_blank (h : s.Inside) (hblank : ∀ i, s.cell ≤ i → i < 2000 → (s.video i).ch = 0) :
    ∀ i, s.newRow.cell ≤ i → i < 2000 → (s.newRow.video i).ch = 0 := by
  obtain ⟨hx,hy⟩ := h
  intro i
  by_cases hlast : s.cursorY = height-1
  · have hrow : s.newRow = { s.shiftScreen with cursorX := 0 } := by
      simp only [Screen.newRow]
      rw [if_pos hlast]
      rfl
    rw [hrow]
    simp only [height] at hlast
    intro hi hi'
    change s.cursorY*80+0 ≤ i at hi
    change (s.shiftScreen.video i).ch = 0
    rw [shiftScreen_last (by omega) hi']
  · have hrow : s.newRow = { s with cursorX := 0, cursorY := s.cursorY+1 } := by
      simp only [Screen.newRow]
      rw [if_neg hlast,show (s.cursorY+1) % 256 = s.cursorY+1 by omega]
    rw [hrow]
    intro hi hi'
    change (s.cursorY+1)*80+0 ≤ i at hi
    exact hblank i (by unfold Screen.cell; omega) hi'

theorem Shows.enter (h : s.Shows base e) (committed : List UInt8) :
    ∃ t b, s.printc 10 = some t ∧ t.Shows b ⟨committed,[],[]⟩ := by
  have ht := h.toggled
  have hlength := length_line (e := e)
  have hcell := ht.cell
  have hfits := ht.fits
  obtain ⟨r,hr,hin,hblank⟩ := skipText_text (n := scanRounds) (k := base+e.line.length) ht.inside
    (by omega) (by rw [scanRounds_eq]; omega)
    (fun i hi hi' => ht.toText.ne_zero ht.nonzero (by omega) hi') ht.blank
  obtain ⟨hrow,hzero⟩ := hin.newRow
  have hbase : r.newRow.cell/80*80 = r.newRow.cell := by
    unfold Screen.cell
    omega
  have hlt := hrow.cell_lt
  have hclear := newRow_blank hin hblank
  have htext : Text r.newRow r.newRow.cell [] := by
    refine ⟨?_,fun j ch hj => ?_,?_,fun i hi hi' => ?_⟩
    · rw [List.length_nil]
      omega
    · cases hj
    · rw [List.length_nil,Nat.add_zero]
      exact hclear
    · omega
  obtain ⟨t,htoggle,hshows⟩ := Text.finished (e := ⟨committed,[],[]⟩) htext hrow
    (Nat.add_zero _).symm (fun x hx => by simp [Editor.line] at hx)
  refine ⟨t,r.newRow.cell,?_,hshows⟩
  rw [printc,printcWithStyle,if_neg (by decide),if_pos rfl,Screen.newLine,toggleCursors_eq h.inside,
    Option.bind_some,hr,Option.bind_some]
  exact htoggle

end ComplexOS.Screen
