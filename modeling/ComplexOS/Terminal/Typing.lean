import ComplexOS.Terminal.KeyboardDriver

/-! # Typing

The driver in front of the line discipline. Bytes come from the keyboard and reads from the
programs, in any order.
-/
namespace ComplexOS
open Runs Terminal

namespace Console
variable {s : Console} {unread : List UInt8}

theorem Kept.readable (h : s.Kept unread) :
    s.keyboard.terminal.readIndex < s.keyboard.terminal.startIndex ↔
      s.returned.length % 3000+unread.length < 3000 ∧ unread ≠ [] := by
  have hroom := h.room
  rw [h.readIndex,h.startIndex,cell_lt,← List.length_pos_iff]
  omega

theorem step_read_editor {t : Console} (ht : s.step .readBuffer = some t) : t.editor = s.editor := by
  obtain ⟨x,-,rfl⟩ := Option.map_eq_some_iff.mp ht
  rfl

theorem Kept.read_front {ch : UInt8} {rest : List UInt8} (h : s.Kept (ch::rest))
    (hlow : s.returned.length % 3000+(ch::rest).length < 3000) :
    ∃ t, s.step .readBuffer = some t ∧ t.Kept rest ∧ t.returned = s.returned++[ch] := by
  have hlt := h.readable.mpr ⟨hlow,List.cons_ne_nil _ _⟩
  obtain ⟨t,unread,ht,hkept⟩ := h.read
  have hne : ch ≠ 0 := h.nonzero ch (by simp)
  have hfront : s.keyboard.kbBuffer (s.returned.length % 3000) = ch := by
    have hhold := h.holds
    rw [List.cons_append] at hhold
    exact hhold.front
  have hreturned : t.returned = s.returned++[ch] := by
    simp only [step,Keyboard.readBuffer] at ht
    rw [if_pos hlt,h.readIndex,Keyboard.load_cell,hfront,Option.map_some,Option.map_some,
      Option.some.injEq] at ht
    rw [← ht]
    simp [hne]
  refine ⟨t,ht,?_,hreturned⟩
  have hcommitted := hkept.committed
  rw [step_read_editor ht,h.committed,hreturned,List.append_assoc,List.singleton_append,
    List.append_cancel_left_eq,List.cons.injEq] at hcommitted
  rw [hcommitted.2]
  exact hkept

theorem Kept.read_nothing (h : s.Kept unread)
    (hlow : ¬ (s.returned.length % 3000+unread.length < 3000 ∧ unread ≠ [])) :
    s.step .readBuffer = some s := by
  simp only [step,Keyboard.readBuffer]
  rw [if_neg (h.readable.not.mpr hlow)]
  simp

theorem run_read_nothing (hs : s.step .readBuffer = some s) (n : ℕ) :
    run step s (.replicate n .readBuffer) = some s := by
  induction n with
  | zero => rfl
  | succ n ih => rw [List.replicate_succ,run,hs,Option.bind_some,ih]

/-- What reads return: the unread lines, unless they go over the end of the array. Then nothing
is returned at all. -/
theorem Kept.reads (h : s.Kept unread) (n : ℕ) :
    ∃ t, run step s (.replicate n .readBuffer) = some t ∧ t.returned = s.returned++
      if s.returned.length % 3000+unread.length < 3000 then unread.take n else [] := by
  by_cases hlow : s.returned.length % 3000+unread.length < 3000
  · rw [if_pos hlow]
    induction n generalizing s unread with
    | zero => exact ⟨s,rfl,(List.append_nil _).symm⟩
    | succ n ih =>
      cases unread with
      | nil =>
        have hstay := h.read_nothing fun hne => hne.2 rfl
        exact ⟨s,run_read_nothing hstay _,(List.append_nil _).symm⟩
      | cons ch rest =>
        obtain ⟨t,ht,hkept,hreturned⟩ := h.read_front hlow
        obtain ⟨u,hu,hru⟩ := ih hkept (by
          rw [hreturned,List.length_append,List.length_singleton]
          rw [List.length_cons] at hlow
          omega)
        refine ⟨u,run_cons.mpr ⟨t,ht,hu⟩,?_⟩
        rw [hru,hreturned,List.append_assoc]
        rfl
  · rw [if_neg hlow]
    have hstay := h.read_nothing fun hne => hlow hne.1
    exact ⟨s,run_read_nothing hstay n,(List.append_nil _).symm⟩

end Console

/-! ### Interrupts and reads -/

/-- A kill of the foreground process empties the buffer. What follows is left out. -/
def KeyboardCall.event : KeyboardCall → Option KeyEvent
  | .writeBuffer ch => some (.writeBuffer ch)
  | .keyboardLeft => some .keyboardLeft
  | .keyboardRight => some .keyboardRight
  | .killForeground => none

def Editor.call (e : Editor) : KeyboardCall → Editor
  | .writeBuffer ch => e.press ch
  | .keyboardLeft => e.left
  | .keyboardRight => e.right
  | .killForeground => e

inductive InputEvent
  | keyboardHandler (input : UInt8)
  | readBuffer

def InputEvent.inputs : InputEvent → List UInt8
  | .keyboardHandler input => [input]
  | .readBuffer => []

structure Input where
  driver : KeyboardDriver
  console : Console

namespace Input

def start : Input := ⟨KeyboardDriver.initial,Console.start⟩

variable (s : Input)

def handle (l : InputEvent) : KeyboardDriver × List KeyboardCall := s.driver.feed l.inputs

def events : InputEvent → List KeyEvent
  | .keyboardHandler input => (s.handle (.keyboardHandler input)).2.filterMap KeyboardCall.event
  | .readBuffer => [.readBuffer]

def step (l : InputEvent) : Option Input :=
  if .killForeground ∈ (s.handle l).2 then none
  else (run Console.step s.console (s.events l)).map (fun c => ⟨(s.handle l).1,c⟩)

def Fits (l : InputEvent) : Prop := Along Console.step Console.Fits s.console (s.events l)

def Calm (l : InputEvent) : Prop := Along Console.step Console.Calm s.console (s.events l)

instance (l : InputEvent) : Decidable (s.Fits l) := by unfold Fits; infer_instance

instance (l : InputEvent) : Decidable (s.Calm l) := by unfold Calm; infer_instance

variable {s} {unread : List UInt8} {l : InputEvent} {es : List InputEvent}

theorem console_editor {c d : Console} {e : KeyEvent} (hd : c.step e = some d) :
    d.editor = match e with
      | .writeBuffer ch => c.editor.press ch
      | .keyboardLeft => c.editor.left
      | .keyboardRight => c.editor.right
      | .readBuffer => c.editor := by
  cases e with
  | writeBuffer ch =>
    obtain ⟨k,-,rfl⟩ := Option.map_eq_some_iff.mp hd
    rfl
  | keyboardLeft | keyboardRight =>
    obtain rfl := Option.some.inj hd
    rfl
  | readBuffer => exact Console.step_read_editor hd

theorem run_editor {calls : List KeyboardCall} {c d : Console}
    (hd : run Console.step c (calls.filterMap KeyboardCall.event) = some d) :
    d.editor = calls.foldl Editor.call c.editor := by
  induction calls generalizing c with
  | nil =>
    cases hd
    rfl
  | cons call calls ih =>
    cases call with
    | killForeground => exact ih hd
    | writeBuffer ch | keyboardLeft | keyboardRight =>
      change run Console.step c (_::calls.filterMap KeyboardCall.event) = some d at hd
      obtain ⟨b,hb,hd⟩ := run_cons.mp hd
      rw [ih hd,console_editor hb]
      rfl

theorem step_kept (h : s.console.Kept unread) (hf : s.Fits l) (hc : s.Calm l)
    (hk : .killForeground ∉ (s.handle l).2) :
    ∃ t unread', s.step l = some t ∧ t.console.Kept unread' ∧ t.driver = (s.handle l).1 ∧
      t.console.editor = (s.handle l).2.foldl Editor.call s.console.editor := by
  have hstep : ∀ (c : Console) e, (∃ unread, c.Kept unread) → c.Fits e ∧ c.Calm e →
      ∃ d, c.step e = some d ∧ ∃ unread, d.Kept unread := by
    rintro c e ⟨unread,hkept⟩ ⟨hfit,hcalm⟩
    obtain ⟨d,unread',hd,hkept⟩ := hkept.next hfit hcalm
    exact ⟨d,hd,unread',hkept⟩
  obtain ⟨c,hrun,unread',hkept⟩ := (Along.and hf hc).total hstep ⟨unread,h⟩
  refine ⟨⟨(s.handle l).1,c⟩,unread',?_,hkept,rfl,?_⟩
  · rw [step,if_neg hk,hrun,Option.map_some]
  · cases l with
    | keyboardHandler input => exact run_editor hrun
    | readBuffer =>
      obtain ⟨d,hd,hrun⟩ := run_cons.mp hrun
      cases hrun
      exact Console.step_read_editor hd

theorem run_kept (h : s.console.Kept unread) (hf : Along step Fits s es) (hc : Along step Calm s es)
    (hk : .killForeground ∉ (s.driver.feed (es.flatMap InputEvent.inputs)).2) :
    ∃ t unread', run step s es = some t ∧ t.console.Kept unread' ∧ t.console.editor =
      (s.driver.feed (es.flatMap InputEvent.inputs)).2.foldl Editor.call s.console.editor := by
  induction es generalizing s unread with
  | nil => exact ⟨s,unread,rfl,h,rfl⟩
  | cons l es ih =>
    rw [List.flatMap_cons,Keys.feed_append] at hk ⊢
    obtain ⟨hkl,hkes⟩ := not_or.mp (List.mem_append.not.mp hk)
    obtain ⟨t,unread',ht,hkept,hdriver,heditor⟩ := step_kept h hf.1 hc.1 hkl
    rw [← show t.driver = (s.driver.feed l.inputs).1 from hdriver] at hkes ⊢
    obtain ⟨u,unread'',hu,hkept,heditor'⟩ := ih hkept (hf.2 t ht) (hc.2 t ht) hkes
    refine ⟨u,unread'',run_cons.mpr ⟨t,ht,hu⟩,hkept,?_⟩
    rw [heditor',heditor,List.foldl_append]
    rfl

theorem run_reads {c : Console} (n : ℕ)
    (hc : run Console.step s.console (.replicate n .readBuffer) = some c) :
    run step s (.replicate n .readBuffer) = some { s with console := c } := by
  induction n generalizing s with
  | zero =>
    cases hc
    rfl
  | succ n ih =>
    obtain ⟨d,hd,hrun⟩ := run_cons.mp hc
    have hstep : s.step .readBuffer = some { s with console := d } := by
      have hevents : run Console.step s.console (s.events .readBuffer) = some d :=
        run_cons.mpr ⟨d,hd,rfl⟩
      rw [step,hevents]
      rfl
    exact run_cons.mpr ⟨_,hstep,ih hrun⟩

/-- However keys are pressed and reads come in between, what has been returned and what is still
unread are the lines that the layout has for the keys. More reads return just what is unread,
unless it goes over the end of the array: then no read returns anything. -/
theorem typed_lines {ms : List KeyMove}
    (hbytes : es.flatMap InputEvent.inputs = ms.flatMap KeyMove.bytes)
    (hone : Along Keys.next Keys.OneCtrl (Keys.idle false) ms)
    (hkill : .killForeground ∉ ((Keys.idle false).play ms).2)
    (hf : Along step Fits start es) (hc : Along step Calm start es) :
    ∃ t unread, run step start es = some t ∧ t.console.returned++unread =
      (((Keys.idle false).play ms).2.foldl Editor.call ⟨[],[],[]⟩).committed ∧
      ∀ n, ∃ u, run step t (.replicate n .readBuffer) = some u ∧
        u.console.returned = t.console.returned++
          if t.console.returned.length % 3000+unread.length < 3000 then unread.take n else [] := by
  have hfeed : start.driver.feed (es.flatMap InputEvent.inputs) =
      (((Keys.idle false).play ms).1.driver,((Keys.idle false).play ms).2) := by
    rw [hbytes]
    exact Keys.feed_moves hone
  obtain ⟨t,unread,ht,hkept,heditor⟩ := run_kept (s := start) Console.start_kept hf hc
    (by rw [hfeed]; exact hkill)
  rw [hfeed] at heditor
  refine ⟨t,unread,ht,?_,fun n => ?_⟩
  · rw [← hkept.committed,heditor]
    rfl
  · obtain ⟨c,hrun,hreturned⟩ := hkept.reads n
    exact ⟨_,run_reads n hrun,hreturned⟩

/-- Shift and `a`, a read, and Enter. -/
theorem typed_lines_plain :
    ∃ t unread, run step start [.keyboardHandler 0x2A,.keyboardHandler 0x1E,.keyboardHandler 0x9E,
      .readBuffer,.keyboardHandler 0xAA,.keyboardHandler 0x1C] = some t ∧
      t.console.returned++unread =
        (((Keys.idle false).play [.press .leftShift,.press (.plain ⟨0x1E,by decide,by decide⟩),
          .release (.plain ⟨0x1E,by decide,by decide⟩),.release .leftShift,
          .press (.plain ⟨0x1C,by decide,by decide⟩)]).2.foldl Editor.call ⟨[],[],[]⟩).committed ∧
      ∀ n, ∃ u, run step t (.replicate n .readBuffer) = some u ∧
        u.console.returned = t.console.returned++
          if t.console.returned.length % 3000+unread.length < 3000 then unread.take n else [] :=
  typed_lines (by decide) (by decide) (by decide) (by decide) (by decide)

end Input
end ComplexOS
