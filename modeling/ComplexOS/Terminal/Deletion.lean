import ComplexOS.Terminal.Insertion

/-! # What `backspace` does to the text

The cells from the cursor on come back by the offset that the blanks before the cursor
make, cell by cell and up to the first blank. Behind a character the offset is one, and
the text is as it was before that character was typed.
-/
namespace ComplexOS.Screen
variable {s r : Screen} {i j k m n o : ℕ} {x y : ℤ} {ch : UInt8}

/-- A column that many rows to the left is the cell that much before. -/
theorem normalize_spec (hm : -(80*m:ℤ) ≤ x) (hx : x < 80) (hj : y*80+x = j) (hn : m < n) :
    normalize n x y = some (col j,row j) := by
  induction m generalizing n x y with
  | zero =>
    obtain ⟨n,rfl⟩ := Nat.exists_eq_succ_of_ne_zero (Nat.ne_zero_of_lt hn)
    have hcol : x = col j := by
      unfold col
      omega
    have hrow : y = row j := by
      unfold row
      omega
    rw [normalize,if_neg (by omega),hcol,hrow]
  | succ m ih =>
    obtain ⟨n,rfl⟩ := Nat.exists_eq_succ_of_ne_zero (Nat.ne_zero_of_lt hn)
    rw [normalize]
    split_ifs with hneg
    · exact ih (by simp only [width]; omega) (by simp only [width]; omega)
        (by simp only [width]; omega) (by omega)
    · have hcol : x = col j := by
        unfold col
        omega
      have hrow : y = row j := by
        unfold row
        omega
      rw [hcol,hrow]

theorem normalize_at (hi : i < 2000) (ho : o ≤ i) :
    normalize scanRounds (col i-o) (row i) = some (col (i-o),row (i-o)) := by
  have hcol : 0 ≤ col i ∧ col i < 80 := by
    unfold col
    omega
  apply normalize_spec (m := 25)
  · omega
  · omega
  · unfold col row
    omega
  · rw [scanRounds_eq]
    omega

def pulled (s : Screen) (o i : ℕ) : Screen :=
  { s with video := fun j => if j = i then ⟨0,(s.video i).style⟩ else if j = i-o then s.video i
      else s.video j }

theorem pullCells_step (hi : i < 2000) (ho : o ≤ i) (hpos : 0 < o) :
    pullCells o (n+1) (col i) (row i) s =
      if i+1 < 2000 ∧ (s.video i).ch ≠ 0 then pullCells o n (col (i+1)) (row (i+1)) (s.pulled o i)
      else some (s.pulled o i) := by
  have hne : i ≠ i-o := by omega
  rw [pullCells,normalize_at hi ho,Option.bind_some]
  dsimp only
  rw [load_at hi,Option.bind_some,store_at (by omega),Option.bind_some,load_at hi,Option.bind_some,
    store_at hi,Option.bind_some]
  have hself : Function.update s.video (i-o) (s.video i) i = s.video i :=
    Function.update_of_ne hne _ _
  have hvideo : Function.update (Function.update s.video (i-o) (s.video i)) i
      ⟨0,(s.video i).style⟩ = (s.pulled o i).video := by
    funext j
    simp only [pulled,Function.update_apply]
  dsimp only
  rw [hself]
  have hround : _ = s.pulled o i := congrArg (fun v => { s with video := v }) hvideo
  rw [hround]
  have hback : (s.pulled o i).video (i-o) = s.video i := by
    simp [pulled,hne.symm]
  rw [load_at (by omega),Option.bind_some,hback]
  by_cases hw : (i+1) % 80 = 0
  · obtain ⟨hnext,hcol⟩ := col_wrap hw
    have hlast : col i = (width:ℤ)-1 := by
      simp only [width]
      omega
    have hrow : row i+1 < (height:ℤ) ↔ i+1 < 2000 := by
      unfold row height
      omega
    rw [if_pos hlast,if_pos hlast,hnext,row_wrap hw]
    by_cases hin : i+1 < 2000
    · rw [if_pos (hrow.mpr hin)]
      simp only [hin,true_and]
    · rw [if_neg (mt hrow.mp hin),if_neg (fun h => hin h.1)]
  · have hlast : ¬ col i = (width:ℤ)-1 := by
      unfold col width
      omega
    have hin : i+1 < 2000 := by omega
    have hrow : row i < (height:ℤ) := by
      unfold row height
      omega
    rw [if_neg hlast,if_neg hlast,if_pos hrow,col_succ hw,row_succ hw]
    simp only [hin,true_and]

/-- A text of `m-i` characters behind the cursor comes back by one cell. -/
structure Pulled (s r : Screen) (i m : ℕ) : Prop where
  moved : ∀ j, i ≤ j+1 → j < m → r.video j = s.video (j+1)
  blank : (r.video m).ch = 0
  kept : ∀ j, j+1 < i ∨ m < j → r.video j = s.video j
  cursorX : r.cursorX = s.cursorX
  cursorY : r.cursorY = s.cursorY

theorem pullCells_one (hpos : 0 < i) (him : i ≤ m) (hm : m < 2000) (hn : m-i < n)
    (htext : ∀ j, i ≤ j → j < m → (s.video j).ch ≠ 0) (hend : m = 1999 ∨ (s.video m).ch = 0) :
    ∃ r, pullCells 1 n (col i) (row i) s = some r ∧ Pulled s r i m := by
  induction n generalizing i s with
  | zero => omega
  | succ n ih =>
    have hstep := pullCells_step (n := n) (s := s) (o := 1) (by omega : i < 2000) hpos
      Nat.one_pos
    have hvideo : ∀ j, (s.pulled 1 i).video j = if j = i then ⟨0,(s.video i).style⟩
        else if j = i-1 then s.video i else s.video j := fun _ => rfl
    rw [Nat.cast_one] at hstep
    rw [hstep]
    by_cases hlast : i = m
    · subst hlast
      rw [if_neg (by rintro ⟨hin,hch⟩; rcases hend with he | he; omega; exact hch he)]
      refine ⟨_,rfl,fun j hj hjm => ?_,?_,fun j hj => ?_,rfl,rfl⟩
      · obtain rfl : j = i-1 := by omega
        rw [hvideo,if_neg (by omega),if_pos rfl,Nat.sub_add_cancel hpos]
      · rw [hvideo,if_pos rfl]
      · rw [hvideo,if_neg (by omega),if_neg (by omega)]
    · rw [if_pos ⟨by omega,htext i le_rfl (by omega)⟩]
      obtain ⟨r,hr,hmoved,hblank,hkept,hx,hy⟩ := ih (s := s.pulled 1 i) (i := i+1)
        (Nat.succ_pos i) (by omega) (by omega)
        (fun j hj hjm => by
          rw [hvideo,if_neg (by omega),if_neg (by omega)]
          exact htext j (by omega) hjm)
        (by
          rw [hvideo,if_neg (by omega),if_neg (by omega)]
          exact hend)
      refine ⟨r,hr,fun j hj hjm => ?_,hblank,fun j hj => ?_,hx,hy⟩
      · by_cases hji : j+1 = i
        · rw [hkept j (by omega),hvideo,if_neg (by omega),if_pos (by omega),hji]
        · rw [hmoved j (by omega) hjm,hvideo,if_neg (by omega),if_neg (by omega)]
      · rw [hkept j (by omega),hvideo,if_neg (by omega),if_neg (by omega)]

/-- Behind a character the first loop counts no blanks, and the text behind the cursor comes
back by one cell. -/
theorem backspace_text (hs : s.Inside) (hk : s.cell = k+1) (hm : k < m) (hm' : m < 2000)
    (htext : ∀ j, k ≤ j → j < m → (s.video j).ch ≠ 0) (hend : m = 1999 ∨ (s.video m).ch = 0) :
    ∃ r, s.backspace = some r ∧ r.cursorX = k % 80 ∧ r.cursorY = k/80 ∧ r.Synced ∧
      (∀ j, k ≤ j → j < m → (r.video j).ch = (s.video (j+1)).ch) ∧ (r.video m).ch = 0 ∧
        ∀ j, j < k ∨ m < j → (r.video j).ch = (s.video j).ch := by
  have hpos : s.cursorY > 0 ∨ s.cursorX > 0 := by
    unfold cell at hk
    omega
  let t : Screen := { s.toggled with cursorX := k % 80, cursorY := k/80 }
  have htoggled := hs.toggled
  have hcol := htoggled.col_cell
  have hrow := htoggled.row_cell
  rw [toggled_cell,hk] at hcol hrow
  have hprevX : (if (s.toggled.cursorX:ℤ) = 0 then (width:ℤ)-1 else s.toggled.cursorX-1) = col k := by
    rw [← hcol]
    unfold col width
    split_ifs <;> omega
  have hprevY : (if (s.toggled.cursorX:ℤ) = 0 then (s.toggled.cursorY:ℤ)-1 else s.toggled.cursorY) =
      row k := by
    rw [← hcol,← hrow]
    unfold col row
    split_ifs <;> omega
  have hbyteX : (col k % 256).toNat = k % 80 := by
    unfold col
    omega
  have hbyteY : (row k % 256).toNat = k/80 := by
    unfold row
    omega
  have hskip : skipBlanks scanRounds 0 (col k) (row k) t = some (0,t) := by
    have hch : (t.video k).ch ≠ 0 := by
      change (s.toggled.video k).ch ≠ 0
      rw [toggled_ch]
      exact htext k le_rfl hm
    rw [scanRounds_eq,skipBlanks,if_pos (by unfold row; omega),load_at (by omega),Option.bind_some,
      if_neg hch]
  obtain ⟨r,hr,hpulled⟩ := pullCells_one (s := t) (i := k+1) (m := m) (n := scanRounds)
    (Nat.succ_pos k) hm hm' (by rw [scanRounds_eq]; omega)
    (fun j hj hjm => by
      change (s.toggled.video j).ch ≠ 0
      rw [toggled_ch]
      exact htext j (by omega) hjm)
    (by
      change m = 1999 ∨ (s.toggled.video m).ch = 0
      rw [toggled_ch]
      exact hend)
  have hinside : (r.updateCursor r.cursorX r.cursorY).Inside := by
    constructor
    · change r.cursorX < 80
      rw [hpulled.cursorX]
      exact Nat.mod_lt _ (by omega)
    · change r.cursorY < 25
      rw [hpulled.cursorY]
      change k/80 < 25
      omega
  have hcall : s.backspace = some (r.updateCursor r.cursorX r.cursorY).toggled := by
    rw [backspace,if_pos hpos,toggleCursors_eq hs,Option.bind_some]
    dsimp only
    rw [hprevX,hprevY,hbyteX,hbyteY,hskip,Option.bind_some]
    dsimp only
    rw [if_pos rfl,← hcol,← hrow,hr,Option.bind_some,toggleCursors_eq hinside]
  have hvideo : ∀ j, ((r.updateCursor r.cursorX r.cursorY).toggled.video j).ch = (r.video j).ch :=
    fun _ => toggled_ch
  have ht : ∀ j, (t.video j).ch = (s.video j).ch := fun _ => toggled_ch
  refine ⟨_,hcall,?_,?_,?_,fun j hj hjm => ?_,?_,fun j hj => ?_⟩
  · rw [toggled_cursorX]
    exact hpulled.cursorX
  · rw [toggled_cursorY]
    exact hpulled.cursorY
  · constructor
    · rw [toggled_videoX,toggled_cursorX]
      rfl
    · rw [toggled_videoY,toggled_cursorY]
      rfl
  · rw [hvideo,hpulled.moved j (by omega) hjm,ht]
  · rw [hvideo,hpulled.blank]
  · rw [hvideo,hpulled.kept j (by omega),ht]

/-! ### Typing and taking back -/

/-- A character typed before a blank: the cursors go on by one cell. -/
theorem printc_inserts (hs : s.Inside) (hv : s.Synced) (hk : s.cell < 1999) (hn : s.FirstBlank n)
    (h0 : ch ≠ 0) (h8 : ch ≠ 8) (h10 : ch ≠ 10) :
    ∃ r, s.printc ch = some r ∧ r.Inside ∧ r.cell = s.cell+1 ∧
      ∀ j, (r.video j).ch = if j = s.cell then ch
        else if s.cell < j ∧ j ≤ n then (s.video (j-1)).ch else (s.video j).ch := by
  have ht := hs.toggled
  have hcell : s.toggled.cell = s.cell := toggled_cell
  have hblank : s.toggled.FirstBlank n := by
    refine ⟨by rw [hcell]; exact hn.behind,hn.inside,?_,fun i hi hin => ?_⟩
    · rw [toggled_ch]
      exact hn.blank
    · rw [toggled_ch]
      exact hn.text i (by rwa [hcell] at hi) hin
  have hsynced : s.toggled.Synced := ⟨by simpa using hv.x,by simpa using hv.y⟩
  let t : Screen := s.toggled.inserted s.cell n ⟨ch,s.defaultStyle⟩
  have hprint : s.toggled.printChar ch s.defaultStyle = some (t.placed (s.cell+1)) := by
    rw [printChar_found ht hblank.inside hblank.behind (fun _ => hsynced) h0
      (findBlank_first ht hblank),hcell]
    have htcell : t.cell = s.cell := hcell
    have hcalm := incrementCursor_cell (s := t) ⟨ht.x,ht.y⟩ (by rw [htcell]; exact hk)
    rw [htcell] at hcalm
    exact congrArg some hcalm
  have hinside : (t.placed (s.cell+1)).Inside := by
    constructor
    · change (s.cell+1) % 80 < 80
      omega
    · change (s.cell+1)/80 < 25
      omega
  refine ⟨(t.placed (s.cell+1)).toggled,?_,hinside.toggled,?_,fun j => ?_⟩
  · rw [printc,printcWithStyle,if_neg h8,if_neg h10,toggleCursors_eq hs,Option.bind_some,hprint,
      Option.bind_some,toggleCursors_eq hinside]
  · rw [toggled_cell]
    change (s.cell+1)/80*80+(s.cell+1) % 80 = s.cell+1
    omega
  · rw [toggled_ch]
    change (if j = s.cell then (⟨ch,s.defaultStyle⟩ : Cell)
      else if s.cell < j ∧ j ≤ n then s.toggled.video (j-1) else s.toggled.video j).ch = _
    split_ifs
    · rfl
    · exact toggled_ch
    · exact toggled_ch

/-- A typed character and a backspace leave the text and the cursors as they were, where the
text behind the cursor ends before two blanks or before the last cell. -/
theorem printc_backspace (hs : s.Inside) (hv : s.Synced) (hk : s.cell < 1999)
    (hn : s.FirstBlank n) (hend : (s.video (n+1)).ch = 0 ∨ n = 1999) (h0 : ch ≠ 0) (h8 : ch ≠ 8)
    (h10 : ch ≠ 10) :
    ∃ t r, s.printc ch = some t ∧ t.backspace = some r ∧
      (∀ i < 2000, (r.video i).ch = (s.video i).ch) ∧
        r.cursorX = s.cursorX ∧ r.cursorY = s.cursorY ∧ r.Synced := by
  obtain ⟨t,ht,hinside,hcell,hch⟩ := printc_inserts hs hv hk hn h0 h8 h10
  have hbehind := hn.behind
  have hlt := hn.inside
  let m := if n < 1999 then n+1 else 1999
  have hm : s.cell < m ∧ m < 2000 ∧ n ≤ m ∧ m ≤ n+1 := by
    simp only [m]
    split_ifs <;> omega
  obtain ⟨r,hr,hx,hy,hsynced,hmoved,hblank,hkept⟩ := backspace_text (k := s.cell) (m := m) hinside
    hcell hm.1 hm.2.1
    (fun j hj hjm => by
      rw [hch]
      split_ifs with hat hin
      · exact h0
      · exact hn.text (j-1) (by omega) (by omega)
      · omega)
    (by
      by_cases hlast : n < 1999
      · have hmn : m = n+1 := if_pos hlast
        right
        rw [hch,hmn,if_neg (by omega),if_neg (by omega)]
        rcases hend with he | he
        · exact he
        · omega
      · exact Or.inl (if_neg hlast))
  refine ⟨t,r,ht,hr,fun i hi => ?_,?_,?_,hsynced⟩
  · by_cases hbefore : i < s.cell ∨ m < i
    · rw [hkept i hbefore,hch,if_neg (by omega),if_neg (by omega)]
    by_cases hat : i = m
    · rw [hat,hblank]
      by_cases hlast : n < 1999
      · have hmn : m = n+1 := if_pos hlast
        rw [hmn]
        rcases hend with he | he
        · exact he.symm
        · omega
      · have hmn : m = 1999 := if_neg hlast
        have hn' : n = 1999 := by omega
        rw [hmn,← hn']
        exact hn.blank.symm
    rw [hmoved i (by omega) (by omega),hch,if_neg (by omega)]
    by_cases hin : i = n
    · have hmn : i+1 = n+1 ∧ n < 1999 := by omega
      rw [if_neg (by omega),hmn.1,hin,hn.blank]
      rcases hend with he | he
      · exact he
      · omega
    · rw [if_pos (by omega),Nat.add_sub_cancel]
  · rw [hx]
    have hcol := hs.col_cell
    unfold col at hcol
    omega
  · rw [hy]
    have hrow := hs.row_cell
    unfold row at hrow
    omega

theorem printc_backspace_wrapped :
    ∃ t r, wrapped.printc 65 = some t ∧ t.backspace = some r ∧
      (∀ i < 2000, (r.video i).ch = (wrapped.video i).ch) ∧
        r.cursorX = wrapped.cursorX ∧ r.cursorY = wrapped.cursorY ∧ r.Synced :=
  printc_backspace wrapped_inside ⟨rfl,rfl⟩ (by decide) wrapped_firstBlank (Or.inl rfl) (by decide)
    (by decide) (by decide)

end ComplexOS.Screen
