import ComplexOS.Kernel.Threads
import ComplexOS.Library.Rings
import ComplexOS.Library.SlotTable

/-! # The scheduler

`scheduler.c` and the thread ring of `threads.c`. Processes sit in the slots of a
static array whose `next` fields link a ring, and so do the threads of each process.
Slots are the `int`s of the source, so the arrays are functions on all of `ℤ`. A read
through NULL, and a walk that has gone on for more rounds than there are slots,
answer `none`.
-/
namespace ComplexOS

def maxProcesses : ℕ := 100
/-- `QUANTUM`. -/
def fullQuantum : ℤ := 2

structure ThreadNode where
  next : ℤ
  thread : Option Thread

structure ProcessRecord where
  pid : ℤ
  ppid : ℤ
  currentThread : ℤ
  threads : ℤ → ThreadNode
  address : ℕ

structure RoundRobinNode where
  next : ℤ
  process : Option ProcessRecord

structure Scheduler where
  processes : ℤ → RoundRobinNode
  firstAvailableSpace : ℤ
  current : ℤ
  processQuantity : ℤ
  quantum : ℤ
  changeLock : ℤ
  lockQuantumExceded : ℤ

open SlotChains

namespace ProcessRecord
variable (p : ProcessRecord)

def link (t : ℤ) : ℤ := (p.threads t).next

def threadState (t : ℤ) : Option ProcessState := (p.threads t).thread.map Thread.state

def setThreadState (t : ℤ) (st : ProcessState) : ProcessRecord :=
  { p with threads := Function.update p.threads t { p.threads t with
      thread := (p.threads t).thread.map (fun th => { th with state := st }) } }

/-- The test of the `do`–`while` of `nextThread`. -/
def passesOver (first t : ℤ) : Option Bool :=
  (p.threadState t).map (fun st => decide (¬ st = .ready ∧ first ≠ t))

/-- `-1` for a process without a READY thread, which stays as it is. -/
def nextThread : Option (ℤ × ProcessRecord) := do
  let first := p.currentThread
  let next ← doWhile p.link (p.passesOver first) maxThreads.toNat first
  let st ← p.threadState next
  if first = next ∧ st ≠ .ready then pure (-1,p)
  else pure (next,{ p with currentThread := next })

end ProcessRecord

namespace Scheduler
variable (s : Scheduler)

def link (i : ℤ) : ℤ := (s.processes i).next

def process? (i : ℤ) : Option ProcessRecord := (s.processes i).process

def setNext (i next : ℤ) : Scheduler :=
  { s with processes := Function.update s.processes i { s.processes i with next := next } }

def setProcess (i : ℤ) (p : Option ProcessRecord) : Scheduler :=
  { s with processes := Function.update s.processes i { s.processes i with process := p } }

def initializeScheduler : Scheduler := ⟨fun _ => ⟨0,none⟩,0,0,0,fullQuantum,0,0⟩

def demoteCurrent : Option Scheduler :=
  match s.process? s.current with
  | none => some s
  | some p => (p.threadState p.currentThread).map (fun st =>
    if st = .running then s.setProcess s.current (some (p.setThreadState p.currentThread .ready))
    else s)

/-- The `do`–`while` of `nextProcess`, with the slot it ends at. -/
def findProcess (first : ℤ) : ℕ → ℤ → Scheduler → Option (ℤ × Scheduler)
  | 0, _, _ => none
  | n+1, i, s => do
    let next := s.link i
    let p ← s.process? next
    let (found,p) ← p.nextThread
    let s := s.setProcess next (some p)
    if found = -1 ∧ first ≠ next then findProcess first n next s else pure (next,s)

def nextProcess : Option Scheduler :=
  if s.changeLock = 1 then some { s with lockQuantumExceded := 1 }
  else do
    let s ← s.demoteCurrent
    let (next,s) ← findProcess s.current maxProcesses s.current s
    let p ← s.process? next
    pure { s.setProcess next (some (p.setThreadState p.currentThread .running)) with
      current := next
      quantum := fullQuantum }

def schedule : Option Scheduler :=
  let t := { s with quantum := s.quantum-1 }
  if s.quantum < 0 then t.nextProcess else some t

/-- `PROCESS_LIMIT_REACHED` is `-1`. -/
def findFirstAvailableSpace : ℤ :=
  ((SlotTable.firstFree (fun n : RoundRobinNode => n.process.isSome) maxProcesses
    (fun i => s.processes i)).map Int.ofNat).getD (-1)

/-- The branches of `addProcess` that write the array. -/
def place (p : ProcessRecord) : Scheduler :=
  if s.processQuantity = 0 then ({ s with current := 0 }.setNext 0 0).setProcess 0 (some p)
  else ((s.setNext s.current s.firstAvailableSpace).setProcess s.firstAvailableSpace
    (some p)).setNext s.firstAvailableSpace (s.link s.current)

def addProcess (p : ProcessRecord) : Scheduler × ℤ :=
  if s.processQuantity ≠ maxProcesses then
    ({ s.place p with
        firstAvailableSpace := (s.place p).findFirstAvailableSpace
        processQuantity := s.processQuantity+1 },p.pid)
  else (s,-1)

/-- The search loop of `removeProcess`: `previous` and `toRemove` at the match, or
`none` inside for its early return. -/
def findRemoved (pid first : ℤ) : ℕ → ℤ → ℤ → Option (Option (ℤ × ℤ))
  | 0, _, _ => none
  | n+1, previous, toRemove => do
    let p ← s.process? toRemove
    if p.pid = pid then pure (some (previous,toRemove))
    else if s.link toRemove = first then pure none
    else findRemoved pid first n toRemove (s.link toRemove)

/-- The writes of `removeProcess` once the process is found. -/
def unlink (previous toRemove : ℤ) : Scheduler :=
  { (s.setNext previous (s.link toRemove)).setProcess toRemove none with
    processQuantity := s.processQuantity-1
    firstAvailableSpace :=
      if s.firstAvailableSpace > toRemove then toRemove else s.firstAvailableSpace }

/-- The yield at the end is the switch it performs. -/
def removeProcess (process : Option ProcessRecord) : Option Scheduler :=
  match process with
  | none => some s
  | some q =>
    if s.processQuantity = 0 then some s
    else if s.current = s.link s.current ∧
        (s.process? s.current).map ProcessRecord.pid = some q.pid then
      some { s.setProcess s.current none with
        current := 0
        processQuantity := s.processQuantity-1 }
    else do
      match ← s.findRemoved q.pid (s.link s.current) maxProcesses s.current (s.link s.current) with
      | none => pure s
      | some (previous,toRemove) =>
        if s.current = toRemove then (s.unlink previous toRemove).nextProcess
        else pure (s.unlink previous toRemove)

/-- `removeProcess` up to its yield, and whether it gets there. -/
def detach (q : ProcessRecord) : Option (Bool × Scheduler) :=
  if s.processQuantity = 0 then some (false,s)
  else if s.current = s.link s.current ∧
      (s.process? s.current).map ProcessRecord.pid = some q.pid then
    some (false,{ s.setProcess s.current none with
      current := 0
      processQuantity := s.processQuantity-1 })
  else (s.findRemoved q.pid (s.link s.current) maxProcesses s.current (s.link s.current)).map
    (fun found => match found with
      | none => (false,s)
      | some (previous,toRemove) => (decide (s.current = toRemove),s.unlink previous toRemove))

def InTable (i : ℤ) : Prop := 0 ≤ i ∧ i < maxProcesses

def Live (i : ℤ) : Prop := (s.process? i).isSome

instance (i : ℤ) : Decidable (InTable i) := inferInstanceAs (Decidable (_ ∧ _))

instance (i : ℤ) : Decidable (s.Live i) := inferInstanceAs (Decidable (_ = true))

variable {s} {i j k : ℤ} {p : Option ProcessRecord}

theorem link_setNext : (s.setNext i j).link = Function.update s.link i j := by
  funext k
  by_cases h : k = i
  · subst h
    simp [link,setNext]
  · simp [link,setNext,h]

@[simp] theorem process?_setNext : (s.setNext i j).process? k = s.process? k := by
  by_cases h : k = i
  · subst h
    simp [process?,setNext]
  · simp [process?,setNext,h]

@[simp] theorem link_setProcess : (s.setProcess i p).link = s.link := by
  funext k
  by_cases h : k = i
  · subst h
    simp [link,setProcess]
  · simp [link,setProcess,h]

theorem process?_setProcess :
    (s.setProcess i p).process? k = if k = i then p else s.process? k := by
  by_cases h : k = i
  · subst h
    simp [process?,setProcess]
  · simp [process?,setProcess,h]

theorem setProcess_setProcess {x y : Option ProcessRecord} :
    (s.setProcess i x).setProcess i y = s.setProcess i y := by
  simp [setProcess]

theorem link_unlink : (s.unlink i j).link = Function.update s.link i (s.link j) := by
  have h : (s.unlink i j).link = ((s.setNext i (s.link j)).setProcess j none).link := rfl
  rw [h,link_setProcess,link_setNext]

theorem process?_unlink :
    (s.unlink i j).process? k = if k = j then none else s.process? k := by
  have h : (s.unlink i j).process? k =
      ((s.setNext i (s.link j)).setProcess j none).process? k := rfl
  rw [h,process?_setProcess,process?_setNext]

theorem removeProcess_detach {q : ProcessRecord} : s.removeProcess (some q) =
    (s.detach q).bind (fun x => if x.1 then x.2.nextProcess else some x.2) := by
  unfold removeProcess detach
  simp only
  split
  · rfl
  split
  · rfl
  cases hf : s.findRemoved q.pid (s.link s.current) maxProcesses s.current (s.link s.current) with
  | none => rfl
  | some found =>
    cases found with
    | none => rfl
    | some ab =>
      obtain ⟨a,b⟩ := ab
      simp

end Scheduler
end ComplexOS
