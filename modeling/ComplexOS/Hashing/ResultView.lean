import ComplexOS.Library.Runs
import Mathlib.Data.List.Basic
import Mathlib.Logic.Function.Basic
import Mathlib.Data.Int.Notation

/-! # The result lines in shared memory

The application appends every line to the shared memory and signals it, and sets a flag
behind the last one. The view waits for a signal and looks: at the flag first, and only
then at the line. A line whose signal the view has not followed by then is not printed.
-/
namespace ComplexOS.Hashing
open Runs

def shmSize : ℕ := 100000

def endFlag : UInt8 := 255

structure ResultLine where
  bytes : List UInt8
  noNul : 0 ∉ bytes

inductive Sem
  | lock
  | messages
  deriving DecidableEq, Repr

/-- Where the application is behind its last critical section. -/
inductive Writer
  | writing
  | signalling
  | finished
  | destroyed
  deriving DecidableEq, Repr

inductive Viewer
  | waiting
  | looking
  | stopped
  deriving DecidableEq, Repr

structure ResultView where
  /-- The lines that are still to come. -/
  results : List ResultLine
  writer : Writer
  sharedMemory : ℕ → UInt8
  sharedMemoryIndex : ℕ
  semaphore : Sem → ℤ
  viewer : Viewer
  index : ℕ
  printed : List (List UInt8)

namespace ResultView

def verifySharedMemoryIndexBounds (index : ℕ) : Prop := index < shmSize

instance : DecidablePred verifySharedMemoryIndexBounds :=
  fun index => inferInstanceAs (Decidable (index < shmSize))

/-- `semop` waits as long as the value would become negative, and fails without having
changed anything once the semaphores are gone. Nobody looks at its answer. -/
def changeSemaphore (n : Sem) (change : ℤ) (s : ResultView) : Option ResultView :=
  if s.writer = .destroyed then some s
  else if 0 ≤ s.semaphore n+change then
    some { s with semaphore := Function.update s.semaphore n (s.semaphore n+change) }
  else none

def critical (f : ResultView → Option ResultView) (s : ResultView) : Option ResultView :=
  (s.changeSemaphore .lock (-1)).bind (fun s => (f s).bind (changeSemaphore .lock 1))

/-- A line and its terminator, as far as they fit, from an index on. -/
def writeLine : List UInt8 → (ℕ → UInt8) → ℕ → (ℕ → UInt8) × ℕ
  | [], memory, i =>
    if verifySharedMemoryIndexBounds i then (Function.update memory i 0,i+1) else (memory,i)
  | c::cs, memory, i =>
    if verifySharedMemoryIndexBounds i then writeLine cs (Function.update memory i c) (i+1)
    else (memory,i)

/-- The critical section of `slaveListener`, for one line. -/
def append (r : ResultLine) (rest : List ResultLine) (s : ResultView) : ResultView :=
  let (memory,i) := writeLine r.bytes s.sharedMemory s.sharedMemoryIndex
  { s with
    results := rest
    writer := .signalling
    sharedMemory := memory
    sharedMemoryIndex := i }

def setFlag (s : ResultView) : ResultView :=
  { s with sharedMemory := Function.update s.sharedMemory 0 endFlag, writer := .finished }

/-- The characters up to a terminator and the index behind it; nothing is read outside of
the shared memory. -/
def readLine (memory : ℕ → UInt8) : ℕ → ℕ → Option (List UInt8 × ℕ)
  | 0, _ => none
  | n+1, i =>
    if memory i ≠ 0 then (readLine memory n (i+1)).map (fun p => (memory i::p.1,p.2))
    else some ([],i+1)

def look (s : ResultView) : Option ResultView :=
  if s.sharedMemory 0 ≠ endFlag then
    (readLine s.sharedMemory (shmSize-s.index) s.index).map
      (fun p => { s with index := p.2, printed := s.printed++[p.1], viewer := .waiting })
  else some { s with viewer := .stopped }

inductive Event
  | write
  | signal
  | finish
  | destroy
  | await
  | look
  deriving DecidableEq, Repr

def step (s : ResultView) : Event → Option ResultView
  | .write =>
    match s.writer, s.results with
    | .writing, r::rest => s.critical (fun s => some (s.append r rest))
    | _, _ => none
  | .signal =>
    if s.writer = .signalling then
      (s.changeSemaphore .messages 1).map (fun s => { s with writer := .writing })
    else none
  | .finish =>
    match s.writer, s.results with
    | .writing, [] => s.critical (fun s => some s.setFlag)
    | _, _ => none
  | .destroy => if s.writer = .finished then some { s with writer := .destroyed } else none
  | .await =>
    if s.viewer = .waiting then
      (s.changeSemaphore .messages (-1)).map (fun s => { s with viewer := .looking })
    else none
  | .look => if s.viewer = .looking then s.critical look else none

/-- The view is attached before the first line. Both semaphores have been set to 1 and the
one of the messages has been taken. -/
def start (results : List ResultLine) : ResultView where
  results := results
  writer := .writing
  sharedMemory _ := 0
  sharedMemoryIndex := 1
  semaphore := fun | .lock => 1 | .messages => 0
  viewer := .waiting
  index := 1
  printed := []

def encoded (ls : List (List UInt8)) : List UInt8 := ls.flatMap (fun l => l++[0])

/-- When the flag is set no signal is left and the view is not following one. -/
def Drained (s : ResultView) (e : Event) : Prop :=
  e = .finish → s.semaphore .messages = 0 ∧ s.viewer = .waiting

end ResultView
end ComplexOS.Hashing
