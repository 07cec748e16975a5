import ComplexOS.Library.Runs
import Mathlib.Data.Fintype.Basic

/-! # Distribution of the files over the slaves

The main loop of the application hands the file names out in batches, and collects a
line for each of them. A slave is a process of its own behind two pipes: it answers the
names in the order in which it reads them, at any moment. The system steps whenever the
application finishes a part of its loop or a slave takes a message.
-/
namespace ComplexOS.Hashing

abbrev numOfSlaves : ℕ := 4
def batchSize : ℕ := 2

abbrev Line := List UInt8

/-- What the application writes to a slave. -/
inductive Message (α : Type*)
  | file (name : α)
  | stop
  deriving DecidableEq, Repr

namespace Message
variable {α : Type*}

def name? : Message α → Option α
  | file f => some f
  | stop => none

def names (ms : List (Message α)) : List α := ms.filterMap name?

end Message

/-- A slave process between its two pipes. `sent` and `read` keep what has gone through
them, since the slave was created. -/
structure Slave (α : Type*) where
  pid : ℤ
  remainingFiles : ℤ
  input : List (Message α)
  output : List Line
  exited : Bool
  sent : List (Message α)
  read : List Line

inductive Phase
  | head
  | listening
  | stopped
  deriving DecidableEq, Repr

structure Distribution (α : Type*) where
  files : List α
  distributedFiles : ℕ
  finishedFiles : ℕ
  slaves : Fin numOfSlaves → Slave α
  phase : Phase
  /-- Every name that has been written, with the slave that it went to. -/
  written : List (Fin numOfSlaves × α)

namespace Slave
variable {α : Type*} (md5sum : α → Line)

def write (s : Slave α) (m : Message α) : Slave α :=
  { s with input := s.input++[m], sent := s.sent++[m] }

def stopSlave (s : Slave α) : Slave α := { s.write .stop with pid := 0 }

/-- `select` reports the slaves that have written something or have closed their pipe. -/
def ready (s : Slave α) : Bool := s.exited || !s.output.isEmpty

/-- `false` at the end of the pipe and for an empty line. -/
def readLine (s : Slave α) : Bool × Slave α :=
  match s.output with
  | [] => (false,s)
  | line::rest => (decide (0 < line.length),{ s with output := rest, read := s.read++[line] })

def take (s : Slave α) : Option (Slave α) :=
  if s.exited then none
  else match s.input with
    | [] => none
    | .file f::rest => some { s with input := rest, output := s.output++[md5sum f] }
    | .stop::rest => some { s with input := rest, exited := true }

end Slave

namespace Distribution
variable {α : Type*} (md5sum : α → Line)

def setSlave (d : Distribution α) (i : Fin numOfSlaves) (s : Slave α) : Distribution α :=
  { d with slaves := Function.update d.slaves i s }

def FilesLeft (d : Distribution α) : Prop := (d.files.length : ℤ)-d.distributedFiles > 0

instance (d : Distribution α) : Decidable d.FilesLeft :=
  inferInstanceAs (Decidable ((d.files.length : ℤ)-d.distributedFiles > 0))

def writeFile (d : Distribution α) (i : Fin numOfSlaves) : Distribution α :=
  match d.files[d.distributedFiles]? with
  | none => d
  | some f =>
    { d.setSlave i { (d.slaves i).write (.file f) with
        remainingFiles := (d.slaves i).remainingFiles+1 } with
      distributedFiles := d.distributedFiles+1
      written := d.written++[(i,f)] }

/-- The inner loop of `distributeFiles`, with the rounds that are left. -/
def distributeBatch (i : Fin numOfSlaves) : ℕ → Bool → Distribution α → Distribution α
  | 0, _, d => d
  | j+1, distributingBatch, d =>
    if d.FilesLeft then
      if (d.slaves i).remainingFiles = 0 ∨ distributingBatch then
        distributeBatch i j true (d.writeFile i)
      else distributeBatch i j distributingBatch d
    else d

def distributeTo (d : Distribution α) (i : Fin numOfSlaves) : Distribution α :=
  if d.FilesLeft then distributeBatch i batchSize false d
  else d.setSlave i (d.slaves i).stopSlave

def distributeFiles (d : Distribution α) : Distribution α :=
  (List.finRange numOfSlaves).foldl distributeTo d

/-- One round of `slaveListener`, for a slave that `select` has reported. -/
def listenTo (d : Distribution α) (i : Fin numOfSlaves) : Distribution α :=
  let (line,s) := (d.slaves i).readLine
  if line then
    { d.setSlave i { s with remainingFiles := s.remainingFiles-1 } with
      finishedFiles := d.finishedFiles+1 }
  else d.setSlave i s

def slaveListener (d : Distribution α) : Distribution α :=
  ((List.finRange numOfSlaves).filter (fun i => (d.slaves i).ready)).foldl listenTo d

def stopOne (d : Distribution α) (i : Fin numOfSlaves) : Distribution α :=
  if (d.slaves i).pid ≠ 0 then d.setSlave i (d.slaves i).stopSlave else d

def stopSlaves (d : Distribution α) : Distribution α :=
  (List.finRange numOfSlaves).foldl stopOne d

def createSlaves (fork : Fin numOfSlaves → ℤ) (files : List α) : Distribution α where
  files := files
  distributedFiles := 0
  finishedFiles := 0
  slaves i := ⟨fork i,0,[],[],false,[],[]⟩
  phase := .head
  written := []

inductive Actor
  | main
  | slave (i : Fin numOfSlaves)
  deriving DecidableEq, Repr

/-- A part of the loop of `main`. Where no slave is ready, `select` waits. -/
def main (d : Distribution α) : Option (Distribution α) :=
  match d.phase with
  | .head =>
    if d.finishedFiles ≠ d.files.length then
      some { if d.distributedFiles ≠ d.files.length then d.distributeFiles else d with
        phase := .listening }
    else some { d.stopSlaves with phase := .stopped }
  | .listening =>
    if ∃ i, (d.slaves i).ready then some { d.slaveListener with phase := .head } else none
  | .stopped => none

def step (d : Distribution α) : Actor → Option (Distribution α)
  | .main => d.main
  | .slave i => ((d.slaves i).take md5sum).map (d.setSlave i)

end Distribution
end ComplexOS.Hashing
