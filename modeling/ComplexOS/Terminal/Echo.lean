import ComplexOS.Terminal.TypedText

/-! # The echo

The two halves of `terminal.c` with `echo` on: what comes from the keyboard goes into the buffer
and onto the screen. In between programs read and the timer lets the cursor blink. Nothing else
prints.
-/
namespace ComplexOS
open Runs

structure EchoingConsole where
  console : Console
  screen : Screen

inductive EchoEvent
  | key (e : KeyEvent)
  | blinkCursor

namespace EchoingConsole
variable (s : EchoingConsole)

/-- What `writeBuffer`, `keyboardLeft` and `keyboardRight` print. A character is printed also where
the buffer does not take it. -/
def echo : KeyEvent → Option Screen
  | .writeBuffer ch =>
    if ch.1 = 8 ∧ s.console.keyboard.terminal.writeIndex = s.console.keyboard.terminal.startIndex
    then some s.screen
    else s.screen.printc ch
  | .keyboardLeft =>
    if s.console.keyboard.terminal.writeIndex ≠ s.console.keyboard.terminal.startIndex then
      s.screen.cursorLeft
    else some s.screen
  | .keyboardRight =>
    if s.console.keyboard.terminal.writeIndex ≠ s.console.keyboard.terminal.endIndex then
      s.screen.cursorRight
    else some s.screen
  | .readBuffer => some s.screen

def step : EchoEvent → Option EchoingConsole
  | .key e => (s.console.step e).bind (fun c => (s.echo e).map (fun t => ⟨c,t⟩))
  | .blinkCursor => s.screen.blinkCursor.map (fun t => { s with screen := t })

def Fits : EchoEvent → Prop
  | .key e => s.console.Fits e
  | .blinkCursor => True

def Calm : EchoEvent → Prop
  | .key e => s.console.Calm e
  | .blinkCursor => True

/-- The line fits on the screen: a scroll does not take away the row in which it starts. And the
cursor does not go to the right from the last cell, where it would stay. -/
def Room : EchoEvent → Prop
  | .key (.writeBuffer ch) => ch.1 = 8 ∨ ch.1 = 10 ∨
    (s.screen.cell < 1999 ∧ s.screen.cell+s.console.editor.behind.length < 2000) ∨
      80+s.console.editor.before.length ≤ s.screen.cell
  | .key .keyboardRight => s.console.editor.behind = [] ∨ s.screen.cell < 1999
  | _ => True

/-- What has been returned are the first of the committed characters, and what is seen is the line
in work with the cursor in it. -/
def Seen : Prop :=
  s.console.Disciplined ∧ ∃ base, s.screen.Shows base s.console.editor

instance (l : EchoEvent) : Decidable (s.Fits l) := by cases l <;> unfold Fits <;> infer_instance

instance (l : EchoEvent) : Decidable (s.Calm l) := by cases l <;> unfold Calm <;> infer_instance

instance (l : EchoEvent) : Decidable (s.Room l) := by unfold Room; split <;> infer_instance

variable {s} {unread : List UInt8} {base : ℕ} {e : KeyEvent} {l : EchoEvent}

/-- One event: the buffer, the editor and the screen go on together. -/
theorem echo_shows (hk : s.console.Kept unread) (hs : s.screen.Shows base s.console.editor)
    (hr : s.Room (.key e)) {c : Console} (hc : s.console.step e = some c) :
    ∃ t b, s.echo e = some t ∧ t.Shows b c.editor := by
  have hstart := hk.atStart
  have hend := hk.atEnd
  have hcell := hs.cell
  obtain ⟨⟨keyboard,⟨committed,before,behind⟩,returned⟩,screen⟩ := s
  dsimp only at hstart hend hcell hs
  cases e with
  | writeBuffer ch =>
    obtain ⟨k,-,rfl⟩ := Option.map_eq_some_iff.mp hc
    by_cases hback : ch.1 = 8
    · obtain rfl : ch = ⟨8,by decide⟩ := Subtype.ext hback
      cases before with
      | nil => exact ⟨screen,base,if_pos ⟨rfl,hstart.mpr rfl⟩,hs⟩
      | cons x before =>
        obtain ⟨t,ht,hshows⟩ := hs.delete
        refine ⟨t,base,(if_neg fun hboth => ?_).trans ht,hshows⟩
        cases hstart.mp hboth.2
    have hecho : echo ⟨⟨keyboard,⟨committed,before,behind⟩,returned⟩,screen⟩ (.writeBuffer ch) =
        screen.printc ch := if_neg fun hboth => hback hboth.1
    rw [hecho]
    by_cases henter : ch.1 = 10
    · obtain rfl : ch = ⟨10,by decide⟩ := Subtype.ext henter
      exact hs.enter _
    · refine hs.type ch.2 hback henter ?_
      rw [Screen.length_line,← Nat.add_assoc,← hcell]
      have hroom := (hr.resolve_left hback).resolve_left henter
      dsimp only at hroom ⊢
      exact hroom.imp_right fun hle => by omega
  | keyboardLeft =>
    obtain rfl := Option.some.inj hc
    cases before with
    | nil => exact ⟨screen,base,if_neg (not_not.mpr (hstart.mpr rfl)),hs⟩
    | cons x before =>
      obtain ⟨t,ht,hshows⟩ := hs.left
      refine ⟨t,base,(if_pos fun he => ?_).trans ht,hshows⟩
      cases hstart.mp he
  | keyboardRight =>
    obtain rfl := Option.some.inj hc
    cases behind with
    | nil => exact ⟨screen,base,if_neg (not_not.mpr (hend.mpr rfl)),hs⟩
    | cons x behind =>
      obtain ⟨t,ht,hshows⟩ := hs.right (hr.resolve_left (List.cons_ne_nil _ _))
      refine ⟨t,base,(if_pos fun he => ?_).trans ht,hshows⟩
      cases hend.mp he
  | readBuffer =>
    obtain ⟨x,-,rfl⟩ := Option.map_eq_some_iff.mp hc
    exact ⟨screen,base,rfl,hs⟩

structure Ok (s : EchoingConsole) : Prop where
  kept : ∃ unread, s.console.Kept unread
  shows : ∃ base, s.screen.Shows base s.console.editor

theorem Ok.seen (h : s.Ok) : s.Seen := by
  obtain ⟨unread,hk⟩ := h.kept
  exact ⟨hk.disciplined,h.shows⟩

theorem Ok.next (h : s.Ok) (hf : s.Fits l) (hc : s.Calm l) (hr : s.Room l) :
    ∃ t, s.step l = some t ∧ t.Ok := by
  obtain ⟨⟨unread,hk⟩,⟨base,hs⟩⟩ := h
  cases l with
  | key e =>
    obtain ⟨c,unread',hstep,hkept⟩ := hk.next hf hc
    obtain ⟨t,b,hecho,hshows⟩ := echo_shows hk hs hr hstep
    refine ⟨⟨c,t⟩,?_,⟨unread',hkept⟩,⟨b,hshows⟩⟩
    rw [step,hstep,Option.bind_some,hecho,Option.map_some]
  | blinkCursor =>
    obtain ⟨t,hblink,hshows⟩ := hs.blinkCursor
    exact ⟨⟨s.console,t⟩,by rw [step,hblink,Option.map_some],⟨unread,hk⟩,⟨base,hshows⟩⟩

/-- With the prompt in its row and nothing behind it, every run of keys, reads and blinks shows at
all times the line that the next Enter commits, as long as the line fits on the screen. -/
theorem line_seen {screen : Screen} (hin : screen.Inside) (hsynced : screen.Synced)
    (hprompt : ∀ i, screen.cursorY*80 ≤ i → i < screen.cell → (screen.video i).ch ≠ 0)
    (hblank : ∀ i, screen.cell ≤ i → i < 2000 → (screen.video i).ch = 0) (ls : List EchoEvent)
    (hf : Along step Fits ⟨Console.start,screen⟩ ls) (hc : Along step Calm ⟨Console.start,screen⟩ ls)
    (hr : Along step Room ⟨Console.start,screen⟩ ls) :
    (∃ t, run step ⟨Console.start,screen⟩ ls = some t) ∧
      Always step Seen ⟨Console.start,screen⟩ ls := by
  have hlt := hin.cell_lt
  have hx := hin.x
  have hshows : screen.Shows screen.cell Console.start.editor := by
    refine ⟨⟨hlt.le,fun j ch hj => ?_,hblank,fun i hi hi' => ?_⟩,hin,hsynced,rfl,fun ch hm => ?_⟩
    · cases hj
    · refine hprompt i ?_ hi'
      unfold Screen.cell at hi
      omega
    · cases hm
  have hok : Ok ⟨Console.start,screen⟩ := ⟨⟨[],Console.start_kept⟩,⟨_,hshows⟩⟩
  have hall := (hf.and hc).and hr
  have hstep : ∀ (s : EchoingConsole) (l : EchoEvent), s.Ok → (s.Fits l ∧ s.Calm l) ∧ s.Room l →
      ∃ t, s.step l = some t ∧ t.Ok := fun s l hs hl => hs.next hl.1.1 hl.1.2 hl.2
  constructor
  · obtain ⟨t,ht,-⟩ := Along.total hstep hok hall
    exact ⟨t,ht⟩
  · refine Along.always (I := Ok) ?_ (fun s hs => hs.seen) hok hall
    intro s l t hs hl ht
    obtain ⟨u,hu,hok⟩ := hstep s l hs hl
    rw [Option.some.inj (ht.symm.trans hu)]
    exact hok

def prompted : Screen where
  video := fun i => if i = 0 then ⟨36,7⟩ else ⟨0,7⟩
  cursorX := 1
  cursorY := 0
  videoX := 1
  videoY := 0
  cursorVisible := false
  defaultStyle := 7

/-- The keys `a`, left and `b`, a blink, Enter, and a read. -/
theorem line_seen_prompted :
    (∃ t, run step ⟨Console.start,prompted⟩ [.key (.writeBuffer ⟨97,by decide⟩),.key .keyboardLeft,
      .key (.writeBuffer ⟨98,by decide⟩),.blinkCursor,.key (.writeBuffer ⟨10,by decide⟩),
      .key .readBuffer] = some t) ∧
      Always step Seen ⟨Console.start,prompted⟩ [.key (.writeBuffer ⟨97,by decide⟩),
        .key .keyboardLeft,.key (.writeBuffer ⟨98,by decide⟩),.blinkCursor,
        .key (.writeBuffer ⟨10,by decide⟩),.key .readBuffer] := by
  refine line_seen ⟨by decide,by decide⟩ ⟨rfl,rfl⟩ (fun i hi hi' => ?_) (fun i hi hi' => ?_) _
    (by decide) (by decide) (by decide)
  · obtain rfl : i = 0 := Nat.lt_one_iff.mp hi'
    decide
  · have hpos : i ≠ 0 := Nat.ne_of_gt hi
    simp [prompted,hpos]

end EchoingConsole
end ComplexOS
