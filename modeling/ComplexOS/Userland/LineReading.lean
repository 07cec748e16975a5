import ComplexOS.Library.Terminated
import ComplexOS.Userland.IntegerText

/-! # Reading lines

`readLine` over a stream of characters. A character is taken from the stream before the length
is tested, and the NUL is stored behind the characters.
-/
namespace ComplexOS
open ByteMemory Terminated

def CallerBuffer.text (b : CallerBuffer) : List UInt8 := upTo 0 b.contents

namespace Libc
open CallerBuffer

/-- `waits` when there are no more characters, `outside` at a store outside of the array. -/
inductive LineRead
  | waits
  | outside
  | returned (length : ℕ) (buffer : CallerBuffer) (newline : Bool) (stream : List UInt8)

/-- The loop: `length` characters are stored. -/
def readLoop (maxSize : ℕ) : List UInt8 → ℕ → CallerBuffer → LineRead
  | [], _, _ => .waits
  | c::stream, length, b =>
    if c ≠ 10 ∧ length < maxSize then
      match b.store length c with
      | none => .outside
      | some b => readLoop maxSize stream (length+1) b
    else
      match b.store length 0 with
      | none => .outside
      | some b => .returned length b (c = 10) stream

def readLine (buffer : CallerBuffer) (maxSize : ℕ) (stream : List UInt8) : LineRead :=
  readLoop maxSize stream 0 buffer

/-- What a call returns, the string that it has stored, and whether a newline has ended it. -/
structure Piece where
  length : ℕ
  text : List UInt8
  newline : Bool

def Piece.consumed (p : Piece) : List UInt8 := p.text++if p.newline then [10] else []

/-- Calls one behind the other, each with an array of `maxSize` bytes, up to one that waits:
what they deliver, and the characters that are left. -/
def session : List CallerBuffer → List UInt8 → Option (List Piece × List UInt8)
  | [], stream => some ([],stream)
  | b::bs, stream =>
    match readLine b b.bound stream with
    | .waits => some ([],stream)
    | .outside => none
    | .returned length b newline rest =>
      (session bs rest).map (fun (pieces,rest) => (⟨length,b.text,newline⟩::pieces,rest))

/-- No store is outside of the arrays, each call returns the length of its string, and the
strings with their newlines are the characters that the calls have taken. -/
def LosesNothing (bs : List CallerBuffer) (stream : List UInt8) : Prop :=
  ∃ pieces rest, session bs stream = some (pieces,rest) ∧ (∀ p ∈ pieces, p.length = p.text.length) ∧
    pieces.flatMap Piece.consumed++rest = stream

/-- Each line of the stream is shorter than the array of its call and has no NUL. A last line
that has no end yet may fill the array. -/
def LinesFit : List CallerBuffer → List UInt8 → Prop
  | [], _ => True
  | b::bs, stream =>
    if 10 ∈ stream then
      (upTo 10 stream).length < b.bound ∧ 0 ∉ upTo 10 stream ∧ LinesFit bs (behind 10 stream)
    else stream.length ≤ b.bound

variable {b : CallerBuffer} {bs : List CallerBuffer} {line rest stream : List UInt8} {n : ℕ}

/-! ### One call -/

theorem readLoop_line (hline : 10 ∉ line) (hroom : n+line.length < b.bound) :
    readLoop b.bound (line++10::rest) n b =
      .returned (n+line.length) { b with bytes := place b.bytes n (line++[0]) } true rest := by
  induction line generalizing n b with
  | nil =>
    have hstore : b.store n 0 = some { b with bytes := Function.update b.bytes n 0 } :=
      store_at (by simpa using hroom)
    rw [List.nil_append,readLoop,if_neg (fun h => h.1 rfl),hstore]
    rfl
  | cons c line ih =>
    have hc : c ≠ 10 := fun h => hline (h ▸ List.mem_cons_self)
    rw [List.length_cons] at hroom
    have hstore : b.store n c = some { b with bytes := Function.update b.bytes n c } :=
      store_at (by omega)
    have hnext : readLoop b.bound (line++10::rest) (n+1)
        { b with bytes := Function.update b.bytes n c } = _ :=
      ih (b := { b with bytes := Function.update b.bytes n c })
        (fun h => hline (List.mem_cons_of_mem _ h)) (by change n+1+_ < b.bound; omega)
    rw [List.cons_append,readLoop,if_pos ⟨hc,by omega⟩,hstore]
    dsimp only
    rw [hnext,List.length_cons,Nat.add_assoc,Nat.add_comm 1]
    rfl

theorem readLoop_waits (hstream : 10 ∉ stream) (hroom : n+stream.length ≤ b.bound) :
    readLoop b.bound stream n b = .waits := by
  induction stream generalizing n b with
  | nil => rfl
  | cons c stream ih =>
    have hc : c ≠ 10 := fun h => hstream (h ▸ List.mem_cons_self)
    rw [List.length_cons] at hroom
    have hstore : b.store n c = some { b with bytes := Function.update b.bytes n c } :=
      store_at (by omega)
    rw [readLoop,if_pos ⟨hc,by omega⟩,hstore]
    exact ih (b := { b with bytes := Function.update b.bytes n c })
      (fun h => hstream (List.mem_cons_of_mem _ h)) (by change n+1+_ ≤ b.bound; omega)

/-- As many characters as the array has bytes: whatever comes next ends the loop, and the NUL
is stored behind the array. -/
theorem readLoop_outside {c : UInt8} (hline : 10 ∉ line) (hfull : n+line.length = b.bound) :
    readLoop b.bound (line++c::rest) n b = .outside := by
  induction line generalizing n b with
  | nil =>
    have hn : n = b.bound := hfull
    have hstore : b.store n 0 = none := if_neg (by omega)
    rw [List.nil_append,readLoop,if_neg (fun h => by omega),hstore]
  | cons d line ih =>
    have hd : d ≠ 10 := fun h => hline (h ▸ List.mem_cons_self)
    rw [List.length_cons] at hfull
    have hstore : b.store n d = some { b with bytes := Function.update b.bytes n d } :=
      store_at (by omega)
    rw [List.cons_append,readLoop,if_pos ⟨hd,by omega⟩,hstore]
    exact ih (b := { b with bytes := Function.update b.bytes n d })
      (fun h => hline (List.mem_cons_of_mem _ h)) (by change n+1+_ = b.bound; omega)

theorem readLine_line (hline : 10 ∉ line) (hroom : line.length < b.bound) :
    readLine b b.bound (line++10::rest) = .returned line.length
      { b with bytes := place b.bytes 0 (line++[0]) } true rest := by
  have h : readLoop b.bound (line++10::rest) 0 b = _ := readLoop_line hline (by omega)
  rwa [Nat.zero_add] at h

theorem readLine_outside (hline : 10 ∉ stream.take b.bound) (hlen : b.bound < stream.length) :
    readLine b b.bound stream = .outside := by
  have htake : (stream.take b.bound).length = b.bound := by
    rw [List.length_take]
    omega
  have hsplit : stream.take b.bound++stream[b.bound]::stream.drop (b.bound+1) = stream := by
    rw [← List.drop_eq_getElem_cons hlen,List.take_append_drop]
  have h : readLoop b.bound (stream.take b.bound++stream[b.bound]::stream.drop (b.bound+1)) 0 b = _ :=
    readLoop_outside hline (by omega)
  rwa [hsplit] at h

theorem text_place (hroom : line.length < b.bound) :
    ({ b with bytes := place b.bytes 0 (line++[0]) } : CallerBuffer).text =
      upTo 0 (line++0::b.contents.drop (line.length+1)) := by
  unfold text
  rw [contents_place (by rw [List.length_append,List.length_singleton]; omega),List.append_assoc,
    List.length_append,List.length_singleton]
  rfl

/-! ### Calls one behind the other -/

theorem losesNothing_line (hline : 10 ∉ line) (hroom : line.length < b.bound) :
    LosesNothing (b::bs) (line++10::rest) ↔ 0 ∉ line ∧ LosesNothing bs rest := by
  unfold LosesNothing
  rw [session,readLine_line hline hroom]
  dsimp only
  rw [text_place hroom]
  constructor
  · rintro ⟨pieces,rest',hs,hlen,hcat⟩
    obtain ⟨⟨ps,rest''⟩,hps,he⟩ := Option.map_eq_some_iff.mp hs
    obtain ⟨rfl,rfl⟩ := Prod.mk.inj he
    have hzero : 0 ∉ line := by
      intro h0
      have hlt := upTo_length_lt (r := 0::b.contents.drop (line.length+1)) h0
      have heq := hlen _ List.mem_cons_self
      dsimp only at heq
      omega
    rw [upTo_append hzero,List.flatMap_cons,Piece.consumed,if_pos rfl,List.append_assoc,
      List.append_assoc] at hcat
    refine ⟨hzero,ps,rest'',hps,fun p hp => hlen p (List.mem_cons_of_mem _ hp),?_⟩
    exact List.cons_injective (List.append_cancel_left hcat)
  · rintro ⟨hzero,ps,rest',hps,hlen,hcat⟩
    rw [upTo_append hzero,hps]
    refine ⟨_,rest',rfl,fun p hp => ?_,?_⟩
    · obtain rfl | hp := List.mem_cons.mp hp
      · rfl
      · exact hlen p hp
    · rw [List.flatMap_cons,Piece.consumed,if_pos rfl,List.append_assoc,List.append_assoc,hcat]
      rfl

theorem losesNothing_waits (hstream : 10 ∉ stream) (hroom : stream.length ≤ b.bound) :
    LosesNothing (b::bs) stream := by
  have h : readLoop b.bound stream 0 b = .waits := readLoop_waits hstream (by omega)
  refine ⟨[],stream,?_,fun p hp => absurd hp List.not_mem_nil,rfl⟩
  rw [session,readLine,h]

theorem not_losesNothing (hline : 10 ∉ stream.take b.bound) (hlen : b.bound < stream.length) :
    ¬ LosesNothing (b::bs) stream := by
  rintro ⟨pieces,rest,hs,-⟩
  rw [session,readLine_outside hline hlen] at hs
  cases hs

/-- Nothing is lost, and nothing is stored outside of the arrays, exactly if every line is
shorter than the array it is read into, and has no NUL. -/
theorem readLine_losesNothing : LosesNothing bs stream ↔ LinesFit bs stream := by
  induction bs generalizing stream with
  | nil => exact iff_of_true ⟨[],stream,rfl,fun p hp => absurd hp List.not_mem_nil,rfl⟩ trivial
  | cons b bs ih =>
    unfold LinesFit
    split_ifs with hten
    · obtain ⟨line,rest,hline,rfl⟩ := exists_split hten
      rw [upTo_append hline,behind_append hline]
      by_cases hroom : line.length < b.bound
      · rw [losesNothing_line hline hroom,ih]
        exact ⟨fun h => ⟨hroom,h⟩,And.right⟩
      · refine iff_of_false (not_losesNothing ?_ ?_) (fun h => hroom h.1)
        · rw [List.take_append_of_le_length (by omega)]
          exact fun h => hline (List.mem_of_mem_take h)
        · rw [List.length_append,List.length_cons]
          omega
    · by_cases hroom : stream.length ≤ b.bound
      · exact iff_of_true (losesNothing_waits hten hroom) hroom
      · exact iff_of_false (not_losesNothing (fun h => hten (List.mem_of_mem_take h)) (by omega)) hroom

/-- Four characters for an array of three. -/
theorem not_readLine_losesNothing : ¬ ∀ (bs : List CallerBuffer) (stream : List UInt8),
    (∀ b ∈ bs, 1 ≤ b.bound) → LosesNothing bs stream := by
  intro h
  exact not_losesNothing (by decide) (by decide)
    (h [⟨3,fun _ => 0⟩] [97,98,99,100,10] (by decide))

end Libc
end ComplexOS
