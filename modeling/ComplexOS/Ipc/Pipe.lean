import ComplexOS.Heap.BuddyAllocator
import ComplexOS.Kernel.State
import ComplexOS.Library.CircularBuffer

/-! # A pipe and the loops over it

`writePipe` and `readPipe` move one byte per round, between a wait, a mutex and a
signal. A call is kept at the point it has reached, and each step is one statement
of the round, so that rounds of different threads interleave statement by statement.
The two semaphores are their counts and the mutex is the thread that holds it.
-/
namespace ComplexOS

def pipePages : ℕ := 1
def pipeBufferLength : ℕ := pipePages*BuddyAllocator.pageSize

structure Pipe where
  readIndex : ℕ
  writeIndex : ℕ
  /-- What lies at `p->buffer` and behind it. -/
  buffer : ℕ → UInt8
  semWrite : ℕ
  semRead : ℕ
  mutex : Option ThreadId

/-- What of a round has been done: the wait has returned, the mutex is held, the byte
is copied, index and count are moved on, the mutex is released. -/
inductive PipePhase
  | waiting | permitted | locked | copied | advanced | released
  deriving DecidableEq, Repr

/-- A call under way. `memory` is what lies at its `message` or `buffer` argument. -/
structure PipeCall where
  thread : ThreadId
  writes : Bool
  memory : ℤ → UInt8
  i : ℤ
  bytes : ℤ
  phase : PipePhase

namespace Pipe
variable (p : Pipe) (c : PipeCall)

/-- The buffer page comes from the allocator with whatever it holds. -/
def createPipe (buffer : ℕ → UInt8) : Pipe := ⟨0,0,buffer,pipeBufferLength,0,none⟩

def mutexDown : Option (Pipe × PipeCall) :=
  if p.mutex = none then
    some ({ p with mutex := some c.thread },{ c with phase := .locked })
  else none

/-- Only the holder's call has an effect. -/
def mutexUp : Option (Pipe × PipeCall) :=
  some ({ p with mutex := if p.mutex = some c.thread then none else p.mutex },
    { c with phase := .released })

/-- The next statement of the loop of `writePipe`. -/
def writePipe : Option (Pipe × PipeCall) :=
  match c.phase with
  | .waiting =>
    if p.semWrite = 0 then none
    else some ({ p with semWrite := p.semWrite-1 },{ c with phase := .permitted })
  | .permitted => p.mutexDown c
  | .locked => (increment c.i).map (fun i =>
      ({ p with buffer := Function.update p.buffer p.writeIndex (c.memory c.i) },
        { c with
          i := i
          phase := .copied }))
  | .copied => (decrement c.bytes).map (fun bytes =>
      ({ p with writeIndex := if p.writeIndex = pipeBufferLength then 0 else p.writeIndex+1 },
        { c with
          bytes := bytes
          phase := .advanced }))
  | .advanced => p.mutexUp c
  | .released => some ({ p with semRead := p.semRead+1 },{ c with phase := .waiting })

/-- The next statement of the loop of `readPipe`. -/
def readPipe : Option (Pipe × PipeCall) :=
  match c.phase with
  | .waiting =>
    if p.semRead = 0 then none
    else some ({ p with semRead := p.semRead-1 },{ c with phase := .permitted })
  | .permitted => p.mutexDown c
  | .locked => (increment c.i).map (fun i =>
      (p,{ c with
        memory := Function.update c.memory c.i (p.buffer p.readIndex)
        i := i
        phase := .copied }))
  | .copied => (decrement c.bytes).map (fun bytes =>
      ({ p with readIndex :=
          if p.readIndex = BuddyAllocator.pageSize*pipePages then 0 else p.readIndex+1 },
        { c with
          bytes := bytes
          phase := .advanced }))
  | .advanced => p.mutexUp c
  | .released => some ({ p with semWrite := p.semWrite+1 },{ c with phase := .waiting })

def round : Option (Pipe × PipeCall) := if c.writes then p.writePipe c else p.readPipe c

@[simp] theorem pipeBufferLength_eq : pipeBufferLength = 4096 := rfl

/-- Reader and writer spell the bound differently but wrap at the same index. -/
@[simp] theorem readBound_eq : BuddyAllocator.pageSize*pipePages = 4096 := rfl

inductive Round (p : Pipe) (c : PipeCall) : Pipe → PipeCall → Prop
  | waitWrite (hw : c.writes = true) (hph : c.phase = .waiting) (hv : 0 < p.semWrite) :
    Round p c { p with semWrite := p.semWrite-1 } { c with phase := .permitted }
  | waitRead (hw : c.writes = false) (hph : c.phase = .waiting) (hv : 0 < p.semRead) :
    Round p c { p with semRead := p.semRead-1 } { c with phase := .permitted }
  | down (hph : c.phase = .permitted) (hm : p.mutex = none) :
    Round p c { p with mutex := some c.thread } { c with phase := .locked }
  | store (hw : c.writes = true) (hph : c.phase = .locked) (i : ℤ) :
    Round p c { p with buffer := Function.update p.buffer p.writeIndex (c.memory c.i) }
      { c with
        i := i
        phase := .copied }
  | take (hw : c.writes = false) (hph : c.phase = .locked) (i : ℤ) :
    Round p c p { c with
      memory := Function.update c.memory c.i (p.buffer p.readIndex)
      i := i
      phase := .copied }
  | advanceWrite (hw : c.writes = true) (hph : c.phase = .copied) (bytes : ℤ) :
    Round p c { p with writeIndex := CircularBuffer.advance 4096 p.writeIndex }
      { c with
        bytes := bytes
        phase := .advanced }
  | advanceRead (hw : c.writes = false) (hph : c.phase = .copied) (bytes : ℤ) :
    Round p c { p with readIndex := CircularBuffer.advance 4096 p.readIndex }
      { c with
        bytes := bytes
        phase := .advanced }
  | up (hph : c.phase = .advanced) :
    Round p c { p with mutex := if p.mutex = some c.thread then none else p.mutex }
      { c with phase := .released }
  | signalRead (hw : c.writes = true) (hph : c.phase = .released) :
    Round p c { p with semRead := p.semRead+1 } { c with phase := .waiting }
  | signalWrite (hw : c.writes = false) (hph : c.phase = .released) :
    Round p c { p with semWrite := p.semWrite+1 } { c with phase := .waiting }

variable {p c} {p' : Pipe} {c' : PipeCall}

theorem writePipe_cases (hw : c.writes = true) (h : p.writePipe c = some (p',c')) :
    Round p c p' c' := by
  cases hph : c.phase with
  | waiting =>
    simp only [writePipe,hph,Option.ite_none_left_eq_some,Option.some.injEq,Prod.mk.injEq] at h
    obtain ⟨hv,rfl,rfl⟩ := h
    exact .waitWrite hw hph (Nat.pos_of_ne_zero hv)
  | permitted =>
    simp only [writePipe,mutexDown,hph,Option.ite_none_right_eq_some,Option.some.injEq,
      Prod.mk.injEq] at h
    obtain ⟨hm,rfl,rfl⟩ := h
    exact .down hph hm
  | locked =>
    simp only [writePipe,hph,Option.map_eq_some_iff,Prod.mk.injEq] at h
    obtain ⟨i,-,rfl,rfl⟩ := h
    exact .store hw hph i
  | copied =>
    simp only [writePipe,hph,Option.map_eq_some_iff,Prod.mk.injEq] at h
    obtain ⟨bytes,-,rfl,rfl⟩ := h
    exact .advanceWrite hw hph bytes
  | advanced =>
    simp only [writePipe,mutexUp,hph,Option.some.injEq,Prod.mk.injEq] at h
    obtain ⟨rfl,rfl⟩ := h
    exact .up hph
  | released =>
    simp only [writePipe,hph,Option.some.injEq,Prod.mk.injEq] at h
    obtain ⟨rfl,rfl⟩ := h
    exact .signalRead hw hph

theorem readPipe_cases (hw : c.writes = false) (h : p.readPipe c = some (p',c')) :
    Round p c p' c' := by
  cases hph : c.phase with
  | waiting =>
    simp only [readPipe,hph,Option.ite_none_left_eq_some,Option.some.injEq,Prod.mk.injEq] at h
    obtain ⟨hv,rfl,rfl⟩ := h
    exact .waitRead hw hph (Nat.pos_of_ne_zero hv)
  | permitted =>
    simp only [readPipe,mutexDown,hph,Option.ite_none_right_eq_some,Option.some.injEq,
      Prod.mk.injEq] at h
    obtain ⟨hm,rfl,rfl⟩ := h
    exact .down hph hm
  | locked =>
    simp only [readPipe,hph,Option.map_eq_some_iff,Prod.mk.injEq] at h
    obtain ⟨i,-,rfl,rfl⟩ := h
    exact .take hw hph i
  | copied =>
    simp only [readPipe,hph,Option.map_eq_some_iff,Prod.mk.injEq] at h
    obtain ⟨bytes,-,rfl,rfl⟩ := h
    exact .advanceRead hw hph bytes
  | advanced =>
    simp only [readPipe,mutexUp,hph,Option.some.injEq,Prod.mk.injEq] at h
    obtain ⟨rfl,rfl⟩ := h
    exact .up hph
  | released =>
    simp only [readPipe,hph,Option.some.injEq,Prod.mk.injEq] at h
    obtain ⟨rfl,rfl⟩ := h
    exact .signalWrite hw hph

theorem round_cases (h : p.round c = some (p',c')) : Round p c p' c' := by
  rw [round] at h
  cases hw : c.writes with
  | true =>
    rw [hw,if_pos rfl] at h
    exact writePipe_cases hw h
  | false =>
    rw [hw,if_neg (by simp)] at h
    exact readPipe_cases hw h

end Pipe
end ComplexOS
