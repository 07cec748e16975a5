import ComplexOS.Library.Runs
import ComplexOS.Terminal.KeyboardBuffer

/-! # The line discipline

Next to the buffer runs an editor that has no indices at all. The unread lines and the line
that is being edited are in the buffer one behind the other, also over the end of the array,
as long as no index is counted down from `0`.
-/
namespace ComplexOS
open CircularBuffer Runs Terminal

/-- The keyboard passes on no zero. -/
abbrev KeyChar := {ch : UInt8 // ch ≠ 0}

inductive KeyEvent
  | writeBuffer (ch : KeyChar)
  | keyboardLeft
  | keyboardRight
  | readBuffer

/-- The lines that have been committed, and the line in work on both sides of the cursor. The
part before the cursor is read from the cursor backwards. -/
structure Editor where
  committed : List UInt8
  before : List UInt8
  behind : List UInt8

namespace Editor
variable (e : Editor)

def line : List UInt8 := e.before.reverse++e.behind

def press (ch : UInt8) : Editor :=
  if ch = 8 then { e with before := e.before.tail }
  else if ch = 10 then ⟨e.committed++e.line++[ch],[],[]⟩
  else { e with before := ch::e.before }

def left : Editor :=
  match e.before with
  | [] => e
  | ch::before => ⟨e.committed,before,ch::e.behind⟩

def right : Editor :=
  match e.behind with
  | [] => e
  | ch::behind => ⟨e.committed,ch::e.before,behind⟩

def length : ℕ := e.committed.length+e.before.length+e.behind.length

end Editor

structure Console where
  keyboard : Keyboard
  editor : Editor
  /-- What `readBuffer` has returned, without the zeros. -/
  returned : List UInt8

namespace Console

def step (s : Console) : KeyEvent → Option Console
  | .writeBuffer ch => (s.keyboard.writeBuffer ch).map (fun k =>
    { s with keyboard := k, editor := s.editor.press ch })
  | .keyboardLeft =>
    some { s with keyboard := s.keyboard.keyboardLeft, editor := s.editor.left }
  | .keyboardRight =>
    some { s with keyboard := s.keyboard.keyboardRight, editor := s.editor.right }
  | .readBuffer => s.keyboard.readBuffer.map (fun (x : UInt8 × Keyboard) =>
    { s with keyboard := x.2, returned := if x.1 = 0 then s.returned else s.returned++[x.1] })

def start : Console := ⟨Keyboard.initial,⟨[],[],[]⟩,[]⟩

def Fits (s : Console) : KeyEvent → Prop
  | .writeBuffer ch => (s.editor.press ch).length ≤ s.returned.length+2999
  | _ => True

/-- No index is counted down from `0`: not by a step to the left, not by a deletion, and not
where a tail that goes over the end of the array makes room. -/
def Calm (s : Console) : KeyEvent → Prop
  | .writeBuffer ch =>
    if ch.1 = 8 then s.keyboard.terminal.writeIndex ≠ s.keyboard.terminal.startIndex →
      s.keyboard.terminal.writeIndex ≠ 0 ∧ s.keyboard.terminal.endIndex ≠ 0
    else if ch.1 = 10 then True
    else s.keyboard.terminal.writeIndex ≤ s.keyboard.terminal.endIndex
  | .keyboardLeft => s.keyboard.terminal.writeIndex ≠ s.keyboard.terminal.startIndex →
    s.keyboard.terminal.writeIndex ≠ 0
  | _ => True

def Disciplined (s : Console) : Prop := s.returned <+: s.editor.committed

structure Kept (s : Console) (unread : List UInt8) : Prop where
  committed : s.editor.committed = s.returned++unread
  holds : Holds s.keyboard.kbBuffer 3000 s.returned.length (unread++s.editor.line)
  room : unread.length+s.editor.before.length+s.editor.behind.length < 3000
  startIndex : s.keyboard.terminal.startIndex = cell (s.returned.length+unread.length)
  writeIndex : s.keyboard.terminal.writeIndex =
    cell (s.returned.length+unread.length+s.editor.before.length)
  endIndex : s.keyboard.terminal.endIndex =
    cell (s.returned.length+unread.length+s.editor.before.length+s.editor.behind.length)
  readIndex : s.keyboard.terminal.readIndex = cell s.returned.length
  size : s.keyboard.terminal.size.toNat =
    unread.length+s.editor.before.length+s.editor.behind.length
  nonzero : ∀ ch ∈ unread++s.editor.line, ch ≠ 0

variable {s : Console} {unread : List UInt8}

theorem Kept.disciplined (h : s.Kept unread) : s.Disciplined := ⟨unread,h.committed.symm⟩

theorem Kept.committed_length (h : s.Kept unread) :
    s.editor.committed.length = s.returned.length+unread.length := by
  rw [h.committed,List.length_append]

theorem start_kept : start.Kept [] :=
  ⟨rfl,holds_nil,by decide,rfl,rfl,rfl,rfl,rfl,fun _ hm => absurd hm List.not_mem_nil⟩

theorem Kept.atStart (h : s.Kept unread) :
    s.keyboard.terminal.writeIndex = s.keyboard.terminal.startIndex ↔ s.editor.before = [] := by
  have hroom := h.room
  rw [h.writeIndex,h.startIndex,cell_inj,← List.length_eq_zero_iff]
  omega

theorem Kept.atEnd (h : s.Kept unread) :
    s.keyboard.terminal.writeIndex = s.keyboard.terminal.endIndex ↔ s.editor.behind = [] := by
  have hroom := h.room
  rw [h.writeIndex,h.endIndex,cell_inj,← List.length_eq_zero_iff]
  omega

theorem cell_ne_zero {k : ℕ} (h : cell k ≠ 0) : k % 3000 ≠ 0 := by
  intro he
  apply h
  rw [← UInt16.toNat_inj,toNat_cell,he]
  rfl

/-! ### The cursor -/

theorem Kept.left (h : s.Kept unread) (hc : s.Calm .keyboardLeft) :
    Kept { s with keyboard := s.keyboard.keyboardLeft, editor := s.editor.left } unread := by
  obtain ⟨k,⟨committed,before,behind⟩,returned⟩ := s
  have hmove := h.atStart
  cases before with
  | nil =>
    have hk : k.keyboardLeft = k := by
      simp only [Keyboard.keyboardLeft,Terminal.keyboardLeft]
      rw [if_neg (not_not.mpr (hmove.mpr rfl))]
    rw [hk]
    exact h
  | cons ch before =>
    have hne : k.terminal.writeIndex ≠ k.terminal.startIndex := fun he => by cases hmove.mp he
    have hpos := hc hne
    have hwrite := h.writeIndex
    simp only [List.length_cons] at hwrite hpos
    rw [hwrite] at hpos
    have hindex : k.keyboardLeft.terminal = { k.terminal with
        writeIndex := cell (returned.length+unread.length+before.length) } := by
      simp only [Keyboard.keyboardLeft,Terminal.keyboardLeft]
      rw [if_pos hne,hwrite,cell_pred (cell_ne_zero hpos)]
      rfl
    have hline : Editor.line ⟨committed,before,ch::behind⟩ =
        Editor.line ⟨committed,ch::before,behind⟩ := by
      simp [Editor.line]
    refine ⟨h.committed,?_,?_,?_,?_,?_,?_,?_,?_⟩
    · simp only [Editor.left,hline]
      exact h.holds
    · have hroom := h.room
      simp only [Editor.left,List.length_cons] at hroom ⊢
      omega
    · rw [hindex]
      exact h.startIndex
    · rw [hindex]
      rfl
    · rw [hindex]
      refine h.endIndex.trans (congrArg cell ?_)
      simp only [Editor.left,List.length_cons]
      omega
    · rw [hindex]
      exact h.readIndex
    · rw [hindex]
      refine h.size.trans ?_
      simp only [Editor.left,List.length_cons]
      omega
    · simp only [Editor.left,hline]
      exact h.nonzero

theorem Kept.right (h : s.Kept unread) :
    Kept { s with keyboard := s.keyboard.keyboardRight, editor := s.editor.right } unread := by
  obtain ⟨k,⟨committed,before,behind⟩,returned⟩ := s
  have hmove := h.atEnd
  cases behind with
  | nil =>
    have hk : k.keyboardRight = k := by
      simp only [Keyboard.keyboardRight,Terminal.keyboardRight]
      rw [if_neg (not_not.mpr (hmove.mpr rfl))]
    rw [hk]
    exact h
  | cons ch behind =>
    have hne : k.terminal.writeIndex ≠ k.terminal.endIndex := fun he => by cases hmove.mp he
    have hindex : k.keyboardRight.terminal = { k.terminal with
        writeIndex := cell (returned.length+unread.length+before.length+1) } := by
      simp only [Keyboard.keyboardRight,Terminal.keyboardRight]
      rw [if_pos hne,h.writeIndex,after_cell]
    have hline : Editor.line ⟨committed,ch::before,behind⟩ =
        Editor.line ⟨committed,before,ch::behind⟩ := by
      simp [Editor.line]
    refine ⟨h.committed,?_,?_,?_,?_,?_,?_,?_,?_⟩
    · simp only [Editor.right,hline]
      exact h.holds
    · have hroom := h.room
      simp only [Editor.right,List.length_cons] at hroom ⊢
      omega
    · rw [hindex]
      exact h.startIndex
    · rw [hindex]
      rfl
    · rw [hindex]
      refine h.endIndex.trans (congrArg cell ?_)
      simp only [Editor.right,List.length_cons]
      omega
    · rw [hindex]
      exact h.readIndex
    · rw [hindex]
      refine h.size.trans ?_
      simp only [Editor.right,List.length_cons]
      omega
    · simp only [Editor.right,hline]
      exact h.nonzero

/-! ### The line -/

theorem Editor.press_char {e : Editor} {ch : UInt8} (hback : ch ≠ 8) (henter : ch ≠ 10) :
    e.press ch = { e with before := ch::e.before } := by
  unfold Editor.press
  rw [if_neg hback,if_neg henter]

/-- A character that fits passes the test of `writeBuffer`. -/
theorem Kept.size_lt {ch : UInt8} (h : s.Kept unread) (hback : ch ≠ 8) (henter : ch ≠ 10)
    (hfit : (s.editor.press ch).length ≤ s.returned.length+2999) :
    s.keyboard.terminal.size < bufferSize-1 := by
  have hroom : unread.length+s.editor.before.length+s.editor.behind.length < 2999 := by
    rw [Editor.press_char hback henter] at hfit
    simp only [Editor.length,List.length_cons,h.committed_length] at hfit
    omega
  rw [UInt16.lt_iff_toNat_lt,h.size]
  exact hroom

theorem Kept.insert {ch : UInt8} (h : s.Kept unread) (hzero : ch ≠ 0) (hback : ch ≠ 8)
    (henter : ch ≠ 10) (hfit : (s.editor.press ch).length ≤ s.returned.length+2999)
    (hc : s.keyboard.terminal.writeIndex ≤ s.keyboard.terminal.endIndex) :
    ∃ k, s.keyboard.writeBuffer ch = some k ∧
      Kept { s with keyboard := k, editor := s.editor.press ch } unread := by
  obtain ⟨k,⟨committed,before,behind⟩,returned⟩ := s
  have hpress : Editor.press ⟨committed,before,behind⟩ ch = ⟨committed,ch::before,behind⟩ :=
    Editor.press_char hback henter
  have hsmall : k.terminal.size < bufferSize-1 := h.size_lt hback henter hfit
  have hwrite := h.writeIndex
  have hend := h.endIndex
  have hsize := h.size
  dsimp only at hwrite hend hsize hc
  have hroom : unread.length+before.length+behind.length < 2999 := by
    rw [← hsize]
    exact UInt16.lt_iff_toNat_lt.mp hsmall
  have hlow := hc
  rw [hwrite,hend,UInt16.le_iff_toNat_le,toNat_cell,toNat_cell] at hlow
  obtain ⟨b,hb,hmove,hkeep⟩ := Keyboard.shiftRight_spec hwrite hend (by omega) hlow
  have hchar : k.terminal.char = ⟨k.terminal.startIndex,
      cell (returned.length+unread.length+before.length+behind.length+1),
      cell (returned.length+unread.length+before.length+1),k.terminal.readIndex,
      k.terminal.size+1⟩ := by
    unfold Terminal.char
    rw [if_pos hsmall,hwrite,hend,after_cell,after_cell]
  refine ⟨⟨k.terminal.char,Function.update b ((returned.length+unread.length+before.length) % 3000)
    ch⟩,?_,?_⟩
  · unfold Keyboard.writeBuffer
    rw [if_neg hback,if_neg henter,if_pos hsmall,hb,Option.bind_some,hwrite,Keyboard.store_cell]
    rfl
  have hline : unread++Editor.line ⟨committed,ch::before,behind⟩ =
      (unread++before.reverse)++ch::behind := by
    simp [Editor.line]
  have hholds : Holds k.kbBuffer 3000 returned.length ((unread++before.reverse)++behind) := by
    rw [List.append_assoc]
    exact h.holds
  have hxs : (unread++before.reverse).length = unread.length+before.length := by simp
  rw [hpress,hchar]
  refine ⟨h.committed,?_,?_,h.startIndex,?_,?_,h.readIndex,?_,?_⟩
  · rw [hline]
    refine hholds.insert (fun j hj => ?_) ?_ (fun j hj hjy => ?_)
    · rw [hxs] at hj
      dsimp only
      rw [Function.update_of_ne (by omega),hkeep _ (fun i hi hie => by omega)]
    · rw [hxs,← Nat.add_assoc]
      exact Function.update_self _ _ _
    · rw [hxs] at hj hjy
      dsimp only
      rw [Function.update_of_ne (by omega),← Nat.add_assoc]
      exact hmove _ (by omega) (by omega)
  · simp only [List.length_cons]
    omega
  · refine congrArg cell ?_
    simp only [List.length_cons]
    omega
  · refine congrArg cell ?_
    simp only [List.length_cons]
    omega
  · dsimp only
    rw [toNat_succ (by omega),hsize,List.length_cons]
    omega
  · rw [hline]
    intro x hx
    have hall := h.nonzero x
    simp only [Editor.line,List.mem_append,List.mem_cons] at hall hx
    grind

theorem Kept.delete (h : s.Kept unread) (hc : s.keyboard.terminal.writeIndex ≠
    s.keyboard.terminal.startIndex →
      s.keyboard.terminal.writeIndex ≠ 0 ∧ s.keyboard.terminal.endIndex ≠ 0) :
    ∃ k, s.keyboard.writeBuffer 8 = some k ∧
      Kept { s with keyboard := k, editor := s.editor.press 8 } unread := by
  obtain ⟨k,⟨committed,before,behind⟩,returned⟩ := s
  have hmove := h.atStart
  cases before with
  | nil =>
    have hstay : ¬ k.terminal.writeIndex ≠ k.terminal.startIndex := not_not.mpr (hmove.mpr rfl)
    refine ⟨k,?_,h⟩
    unfold Keyboard.writeBuffer Keyboard.shiftLeft Terminal.backspace
    rw [if_pos rfl,if_neg hstay,if_neg hstay]
    rfl
  | cons ch before =>
    have hne : k.terminal.writeIndex ≠ k.terminal.startIndex := fun he => by cases hmove.mp he
    obtain ⟨hwpos,hepos⟩ := hc hne
    have hwrite : k.terminal.writeIndex = cell (returned.length+unread.length+before.length+1) :=
      h.writeIndex
    have hend := h.endIndex
    have hroom := h.room
    have hsize := h.size
    simp only [List.length_cons] at hend hroom hsize hwpos hepos
    rw [hwrite] at hwpos
    rw [hend] at hepos
    have hwz := cell_ne_zero hwpos
    have hez := cell_ne_zero hepos
    obtain ⟨b,hb,hslide,hkeep⟩ := Keyboard.shiftLeft_spec hwrite hend hne hwz (by omega)
    have hback : k.terminal.backspace = ⟨k.terminal.startIndex,
        cell (returned.length+unread.length+before.length+behind.length),
        cell (returned.length+unread.length+before.length),k.terminal.readIndex,
        k.terminal.size-1⟩ := by
      unfold Terminal.backspace
      rw [if_pos hne,hwrite,hend,cell_pred hwz,cell_pred hez]
      congr 2
      omega
    refine ⟨⟨k.terminal.backspace,b⟩,?_,?_⟩
    · unfold Keyboard.writeBuffer
      rw [if_pos rfl,hb]
      rfl
    have hpress : Editor.press ⟨committed,ch::before,behind⟩ 8 = ⟨committed,before,behind⟩ := rfl
    have hline : unread++Editor.line ⟨committed,before,behind⟩ =
        (unread++before.reverse)++behind := by
      simp [Editor.line]
    have hholds : Holds k.kbBuffer 3000 returned.length ((unread++before.reverse)++ch::behind) := by
      have hold := h.holds
      simpa [Editor.line] using hold
    have hxs : (unread++before.reverse).length = unread.length+before.length := by simp
    rw [hpress,hback]
    refine ⟨h.committed,?_,?_,h.startIndex,rfl,rfl,h.readIndex,?_,?_⟩
    · rw [hline]
      refine hholds.delete (fun j hj => ?_) (fun j hj hjy => ?_)
      · rw [hxs] at hj
        exact hkeep _ (fun i hi hie => by omega)
      · rw [hxs] at hj hjy
        exact hslide _ (by omega) (by omega)
    · dsimp only
      omega
    · dsimp only
      rw [toNat_pred (by omega),hsize]
      omega
    · rw [hline]
      intro x hx
      have hall := h.nonzero x
      simp only [Editor.line,List.mem_append,List.mem_reverse,List.mem_cons] at hall hx
      grind

theorem Kept.enter (h : s.Kept unread)
    (hfit : (s.editor.press 10).length ≤ s.returned.length+2999) :
    ∃ k, s.keyboard.writeBuffer 10 = some k ∧
      Kept { s with keyboard := k, editor := s.editor.press 10 } (unread++s.editor.line++[10]) := by
  obtain ⟨k,⟨committed,before,behind⟩,returned⟩ := s
  have hend := h.endIndex
  have hsize := h.size
  have hline : (Editor.line ⟨committed,before,behind⟩).length = before.length+behind.length := by
    simp [Editor.line]
  have hcommitted : committed.length = returned.length+unread.length := h.committed_length
  have hpress : Editor.press ⟨committed,before,behind⟩ 10 =
      ⟨committed++Editor.line ⟨committed,before,behind⟩++[10],[],[]⟩ := rfl
  dsimp only at hend hsize hfit
  have hroom : unread.length+before.length+behind.length < 2999 := by
    rw [hpress] at hfit
    simp only [Editor.length,List.length_append,List.length_singleton,List.length_nil,hcommitted,
      hline] at hfit
    omega
  refine ⟨⟨k.terminal.newLine,Function.update k.kbBuffer
    ((returned.length+unread.length+before.length+behind.length) % 3000) 10⟩,?_,?_⟩
  · unfold Keyboard.writeBuffer
    rw [if_neg (by decide),if_pos rfl,hend,Keyboard.store_cell]
    rfl
  have hnew : k.terminal.newLine = ⟨cell (returned.length+unread.length+before.length+
      behind.length+1),cell (returned.length+unread.length+before.length+behind.length+1),
      cell (returned.length+unread.length+before.length+behind.length+1),k.terminal.readIndex,
      k.terminal.size+1⟩ := by
    unfold Terminal.newLine
    rw [hend,after_cell]
  rw [hpress,hnew]
  have hlength : (unread++Editor.line ⟨committed,before,behind⟩++[10]).length =
      unread.length+before.length+behind.length+1 := by
    simp only [List.length_append,List.length_singleton,hline]
    omega
  have hindex : cell (returned.length+unread.length+before.length+behind.length+1) =
      cell (returned.length+(unread++Editor.line ⟨committed,before,behind⟩++[10]).length) := by
    rw [hlength]
    exact congrArg cell (by omega)
  refine ⟨?_,?_,?_,hindex,hindex,hindex,h.readIndex,?_,?_⟩
  · have hcomm := h.committed
    dsimp only at hcomm ⊢
    rw [hcomm]
    simp
  · have hempty : Editor.line ⟨committed++Editor.line ⟨committed,before,behind⟩++[10],[],[]⟩ = [] :=
      rfl
    have hput := h.holds.put (a := (10 : UInt8)) (by
      rw [List.length_append,hline]
      omega)
    rw [List.length_append,hline] at hput
    dsimp only at hput ⊢
    rw [hempty,List.append_nil]
    have hpos : returned.length+unread.length+before.length+behind.length =
        returned.length+(unread.length+(before.length+behind.length)) := by
      omega
    rw [hpos]
    exact hput
  · rw [hlength]
    dsimp only [List.length_nil]
    omega
  · dsimp only [List.length_nil]
    rw [toNat_succ (by omega),hsize,hlength]
  · intro x hx
    have hall := h.nonzero x
    have hten : (10 : UInt8) ≠ 0 := by decide
    simp only [Editor.line,List.mem_append,List.mem_singleton,List.reverse_nil,
      List.append_nil] at hall hx
    grind

theorem Kept.read (h : s.Kept unread) :
    ∃ t unread', s.step .readBuffer = some t ∧ t.Kept unread' := by
  obtain ⟨k,e,returned⟩ := s
  have hread := h.readIndex
  have hstart := h.startIndex
  have hroom := h.room
  have hsize := h.size
  dsimp only at hread hstart hroom hsize
  by_cases hlt : k.terminal.readIndex < k.terminal.startIndex
  · cases unread with
    | nil =>
      rw [hread,hstart] at hlt
      exact absurd hlt (UInt16.lt_irrefl _)
    | cons ch rest =>
      have hne : ch ≠ 0 := h.nonzero ch (by simp)
      have hfront : k.kbBuffer (returned.length % 3000) = ch := by
        have hhold := h.holds
        rw [List.cons_append] at hhold
        exact hhold.front
      have htake : k.terminal.take k.terminal.startIndex = { k.terminal with
          readIndex := cell (returned.length+1), size := k.terminal.size-1 } := by
        unfold Terminal.take
        rw [if_pos hlt,hread,after_cell]
      have hlen : (returned++[ch]).length = returned.length+1 := List.length_append
      refine ⟨⟨{ k with terminal := k.terminal.take k.terminal.startIndex },e,returned++[ch]⟩,rest,
        ?_,?_⟩
      · simp only [step,Keyboard.readBuffer]
        rw [if_pos hlt,hread,Keyboard.load_cell,hfront]
        simp [hne]
      rw [htake]
      refine ⟨?_,?_,?_,?_,?_,?_,?_,?_,?_⟩
      · have hcomm := h.committed
        dsimp only at hcomm ⊢
        rw [hcomm]
        simp
      · have hhold := h.holds
        rw [List.cons_append] at hhold
        dsimp only
        rw [hlen]
        exact hhold.take
      · simp only [List.length_cons] at hroom
        dsimp only
        omega
      · refine hstart.trans (congrArg cell ?_)
        simp only [List.length_cons,hlen]
        omega
      · refine h.writeIndex.trans (congrArg cell ?_)
        simp only [List.length_cons,hlen]
        omega
      · refine h.endIndex.trans (congrArg cell ?_)
        simp only [List.length_cons,hlen]
        omega
      · dsimp only
        rw [hlen]
      · dsimp only
        simp only [List.length_cons] at hsize
        rw [toNat_pred (by omega),hsize]
        omega
      · exact fun x hx => h.nonzero x (List.mem_cons_of_mem _ hx)
  · refine ⟨⟨k,e,returned⟩,unread,?_,h⟩
    simp only [step,Keyboard.readBuffer]
    rw [if_neg hlt]
    simp

/-! ### Whole runs -/

theorem step_writeBuffer {ch : KeyChar} {k : Keyboard}
    (hk : s.keyboard.writeBuffer ch = some k) :
    s.step (.writeBuffer ch) = some { s with keyboard := k, editor := s.editor.press ch } := by
  simp only [step,hk,Option.map_some]

theorem Kept.next {l : KeyEvent} (h : s.Kept unread) (hf : s.Fits l) (hc : s.Calm l) :
    ∃ t unread', s.step l = some t ∧ t.Kept unread' := by
  cases l with
  | writeBuffer ch =>
    by_cases hback : ch.1 = 8
    · simp only [Calm,if_pos hback] at hc
      obtain ⟨k,hk,hkept⟩ := h.delete hc
      exact ⟨_,unread,step_writeBuffer (by rw [hback]; exact hk),by rw [hback]; exact hkept⟩
    · by_cases henter : ch.1 = 10
      · simp only [Fits,henter] at hf
        obtain ⟨k,hk,hkept⟩ := h.enter hf
        exact ⟨_,_,step_writeBuffer (by rw [henter]; exact hk),by rw [henter]; exact hkept⟩
      · simp only [Calm,if_neg hback,if_neg henter] at hc
        obtain ⟨k,hk,hkept⟩ := h.insert ch.2 hback henter hf hc
        exact ⟨_,unread,step_writeBuffer hk,hkept⟩
  | keyboardLeft => exact ⟨_,unread,rfl,h.left hc⟩
  | keyboardRight => exact ⟨_,unread,rfl,h.right⟩
  | readBuffer => exact h.read

instance (s : Console) (l : KeyEvent) : Decidable (s.Fits l) := by
  cases l <;> unfold Fits <;> infer_instance

instance (s : Console) (l : KeyEvent) : Decidable (s.Calm l) := by
  cases l <;> unfold Calm <;> infer_instance

/-- As long as no index is counted down from `0`, every run goes on, with every access inside the
array, and what has been returned is always the first part of the committed lines. -/
theorem line_discipline (ls : List KeyEvent) (hf : Along step Fits start ls)
    (hc : Along step Calm start ls) :
    (∃ t, run step start ls = some t) ∧ Always step Disciplined start ls := by
  have hstep : ∀ (s : Console) (l : KeyEvent), (∃ unread, s.Kept unread) → s.Fits l ∧ s.Calm l →
      ∃ t, s.step l = some t ∧ ∃ unread, t.Kept unread := by
    rintro s l ⟨unread,h⟩ ⟨hf,hc⟩
    obtain ⟨t,unread',ht,hkept⟩ := h.next hf hc
    exact ⟨t,ht,unread',hkept⟩
  have hall := hf.and hc
  constructor
  · obtain ⟨t,ht,-⟩ := Along.total hstep ⟨[],start_kept⟩ hall
    exact ⟨t,ht⟩
  · refine Along.always (I := fun s => ∃ unread, s.Kept unread) ?_ ?_ ⟨[],start_kept⟩ hall
    · intro s l t hs hl ht
      obtain ⟨u,hu,hkept⟩ := hstep s l hs hl
      rw [Option.some.inj (ht.symm.trans hu)]
      exact hkept
    · rintro s ⟨unread,h⟩
      exact h.disciplined

/-- The keys `a`, backspace, `b`, left, `c` and Enter. -/
theorem line_discipline_plain :
    (∃ t, run step start [.writeBuffer ⟨97,by decide⟩,.writeBuffer ⟨8,by decide⟩,
      .writeBuffer ⟨98,by decide⟩,.keyboardLeft,.writeBuffer ⟨99,by decide⟩,
      .writeBuffer ⟨10,by decide⟩,.readBuffer] = some t) ∧
      Always step Disciplined start [.writeBuffer ⟨97,by decide⟩,
        .writeBuffer ⟨8,by decide⟩,.writeBuffer ⟨98,by decide⟩,.keyboardLeft,
        .writeBuffer ⟨99,by decide⟩,.writeBuffer ⟨10,by decide⟩,.readBuffer] :=
  line_discipline _ (by decide) (by decide)

/-! ### Below the first index -/

/-- A deletion where the cursor is at index `0` writes behind the array. -/
theorem Kept.delete_below (h : s.Kept unread) (hb : s.editor.before ≠ [])
    (hw : s.keyboard.terminal.writeIndex = 0) : s.step (.writeBuffer ⟨8,by decide⟩) = none := by
  have hne : s.keyboard.terminal.writeIndex ≠ s.keyboard.terminal.startIndex := by
    rw [Ne,h.atStart]
    exact hb
  have hbelow : (0 : UInt16)-1 = 65535 := by decide
  have hshift : s.keyboard.shiftLeft = none := by
    unfold Keyboard.shiftLeft
    rw [if_pos hne,hw,hbelow,h.endIndex]
    exact Keyboard.slideLeft_below _ _
  simp only [Console.step,Keyboard.writeBuffer,if_true,hshift,Option.map_none]

theorem Kept.insert_below {ch : KeyChar} (h : s.Kept unread) (hback : ch.1 ≠ 8) (henter : ch.1 ≠ 10)
    (hfit : s.Fits (.writeBuffer ch))
    (hw : s.keyboard.terminal.endIndex < s.keyboard.terminal.writeIndex) :
    s.step (.writeBuffer ch) = none := by
  have hne : s.keyboard.terminal.writeIndex ≠ s.keyboard.terminal.endIndex := by
    intro he
    rw [he] at hw
    exact UInt16.lt_irrefl _ hw
  have hsmall : s.keyboard.terminal.size < bufferSize-1 := h.size_lt hback henter hfit
  rw [h.endIndex,h.writeIndex,cell_lt] at hw
  have hshift : s.keyboard.shiftRight = none := by
    unfold Keyboard.shiftRight
    rw [if_pos hne,h.writeIndex,h.endIndex]
    exact Keyboard.slideRight_below hw
  simp only [Console.step,Keyboard.writeBuffer,if_neg hback,if_neg henter,if_pos hsmall,hshift,
    Option.bind_none,Option.map_none]

/-- The condition is exact: any other step is out of the array or leaves an index behind it. -/
theorem Kept.next_iff {l : KeyEvent} (h : s.Kept unread) (hf : s.Fits l) :
    (∃ t unread', s.step l = some t ∧ t.Kept unread') ↔ s.Calm l := by
  constructor
  · rintro ⟨t,unread',ht,hkept⟩
    cases l with
    | writeBuffer ch =>
      by_cases hback : ch.1 = 8
      · simp only [Calm,if_pos hback]
        intro hne
        obtain rfl : ch = ⟨8,by decide⟩ := Subtype.ext hback
        constructor
        · intro hzero
          rw [h.delete_below (fun hb => hne (h.atStart.mpr hb)) hzero] at ht
          cases ht
        · intro hzero
          obtain ⟨k,hk,rfl⟩ := Option.map_eq_some_iff.mp ht
          unfold Keyboard.writeBuffer at hk
          rw [if_pos rfl] at hk
          obtain ⟨b,-,rfl⟩ := Option.map_eq_some_iff.mp hk
          have hend := hkept.endIndex
          dsimp only [Terminal.backspace] at hend
          rw [if_pos hne,hzero] at hend
          exact cell_ne_below _ hend.symm
      · by_cases henter : ch.1 = 10
        · simp only [Calm,if_neg hback,if_pos henter]
        · simp only [Calm,if_neg hback,if_neg henter]
          by_contra hle
          rw [h.insert_below hback henter hf (UInt16.not_le.mp hle)] at ht
          cases ht
    | keyboardLeft =>
      intro hne hzero
      obtain rfl := Option.some.inj ht
      have hwrite := hkept.writeIndex
      dsimp only [Keyboard.keyboardLeft,Terminal.keyboardLeft] at hwrite
      rw [if_pos hne,hzero] at hwrite
      exact cell_ne_below _ hwrite.symm
    | keyboardRight => trivial
    | readBuffer => trivial
  · exact h.next hf

/-- Characters that are typed at the end of the line go one behind the other. -/
theorem Kept.typed (ch : KeyChar) (hback : ch.1 ≠ 8) (henter : ch.1 ≠ 10) (n : ℕ)
    (h : s.Kept unread) (hb : s.editor.behind = [])
    (hroom : unread.length+s.editor.before.length+n < 3000) :
    ∃ t, t.Kept unread ∧ t.returned = s.returned ∧ t.editor.behind = [] ∧
      t.editor.before.length = s.editor.before.length+n ∧
        ∀ ls, (Along step Fits t ls → Along step Fits s (.replicate n (.writeBuffer ch)++ls)) ∧
          run step s (.replicate n (.writeBuffer ch)++ls) = run step t ls := by
  induction n generalizing s with
  | zero => exact ⟨s,h,rfl,hb,rfl,fun ls => ⟨id,rfl⟩⟩
  | succ n ih =>
    have hpress : s.editor.press ch = ⟨s.editor.committed,ch::s.editor.before,[]⟩ := by
      rw [Editor.press_char hback henter,hb]
    have hfit : s.Fits (.writeBuffer ch) := by
      simp only [Fits,hpress,Editor.length,h.committed_length,List.length_cons,List.length_nil]
      omega
    have hcalm : s.keyboard.terminal.writeIndex = s.keyboard.terminal.endIndex := h.atEnd.mpr hb
    obtain ⟨k,hk,hkept⟩ := h.insert ch.2 hback henter hfit (by rw [hcalm]; exact UInt16.le_refl _)
    rw [hpress] at hkept
    obtain ⟨t,ht,hreturned,hbehind,hbefore,hls⟩ := ih hkept rfl (by
      simp only [List.length_cons]
      omega)
    have hstep := step_writeBuffer hk
    rw [hpress] at hstep
    refine ⟨t,ht,hreturned,hbehind,?_,fun ls => ⟨fun hl => ⟨hfit,fun u hu => ?_⟩,?_⟩⟩
    · rw [hbefore]
      simp only [List.length_cons]
      omega
    · obtain rfl := Option.some.inj (hstep.symm.trans hu)
      exact (hls ls).1 hl
    · rw [← (hls ls).2]
      simp only [List.replicate_succ,List.cons_append,run,hstep,Option.bind_some]

/-- Enter, a read, `BUFFER_SIZE-1` times `a` and a backspace. -/
theorem line_discipline_fails : ¬ ∀ ls, Along step Fits start ls →
    (∃ t, run step start ls = some t) ∧ Always step Disciplined start ls := by
  intro hall
  obtain ⟨u,s,hu,hs,hkept,hreturned,hbefore,hbehind⟩ : ∃ u s,
      start.step (.writeBuffer ⟨10,by decide⟩) = some u ∧ u.step .readBuffer = some s ∧
        s.Kept [] ∧ s.returned = [10] ∧ s.editor.before = [] ∧ s.editor.behind = [] :=
    ⟨_,_,rfl,rfl,⟨rfl,holds_nil,by decide,rfl,rfl,rfl,rfl,rfl,fun _ h => absurd h List.not_mem_nil⟩,
      rfl,rfl,rfl⟩
  obtain ⟨t,ht,hread,-,hlong,hls⟩ := hkept.typed ⟨97,by decide⟩ (by decide) (by decide) 2999
    hbehind (by rw [hbefore]; decide)
  rw [hreturned] at hread
  rw [hbefore,List.length_nil] at hlong
  have hwrite : t.keyboard.terminal.writeIndex = 0 := by
    rw [ht.writeIndex,hread,hlong,List.length_singleton,List.length_nil,← UInt16.toNat_inj,
      toNat_cell]
    decide
  have hline : t.editor.before ≠ [] := by
    apply List.ne_nil_of_length_pos
    omega
  have hback := ht.delete_below hline hwrite
  have hfit : t.Fits (.writeBuffer ⟨8,by decide⟩) := by
    have hcommitted := ht.committed_length
    have hroom := ht.room
    simp only [Fits,Editor.press,if_true,Editor.length,List.length_tail,List.length_nil]
      at hcommitted hroom ⊢
    omega
  have hfits := (hls [.writeBuffer ⟨8,by decide⟩]).1
    ⟨hfit,fun v hv => by rw [hback] at hv; cases hv⟩
  have hstart : Along step Fits start (.writeBuffer ⟨10,by decide⟩::.readBuffer::
      (.replicate 2999 (.writeBuffer ⟨97,by decide⟩)++[.writeBuffer ⟨8,by decide⟩])) := by
    refine ⟨by decide,fun v hv => ⟨trivial,fun w hw => ?_⟩⟩
    obtain rfl := Option.some.inj (hu.symm.trans hv)
    obtain rfl := Option.some.inj (hs.symm.trans hw)
    exact hfits
  obtain ⟨⟨v,hv⟩,-⟩ := hall _ hstart
  obtain ⟨u',hu',hv⟩ := run_cons.mp hv
  obtain rfl := Option.some.inj (hu.symm.trans hu')
  obtain ⟨s',hs',hv⟩ := run_cons.mp hv
  obtain rfl := Option.some.inj (hs.symm.trans hs')
  rw [(hls _).2] at hv
  obtain ⟨t',ht',-⟩ := run_cons.mp hv
  rw [hback] at ht'
  cases ht'

end Console
end ComplexOS
