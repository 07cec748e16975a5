import ComplexOS.Kernel.State
import ComplexOS.Scheduler.Selection

/-! # Creations, kills and the foreground

What `process.c`, `scheduler.c` and `sysCalls.c` do to the ring of processes from
`startSystem` on. A function that ends in a yield stops in front of it. A read through
NULL is no step. Slot `-1`, in front of the table, is a slot like the others.
-/
namespace ComplexOS
open SlotChains

namespace Scheduler
variable (s : Scheduler) (pid thread : ℤ)

def getpid : Option ℤ :=
  if s.processQuantity = 0 then some (-1) else (s.process? s.current).map ProcessRecord.pid

/-- The loop of `getProcessIndex`. -/
def findIndex : ℕ → ℤ → Option (Option ℤ)
  | 0, _ => some none
  | n+1, next => (s.process? next).bind (fun p =>
    if p.pid = pid then some (some next) else findIndex n (s.link next))

/-- `PID_NOT_FOUND` is `none` inside. It is `-1`, and so is the slot in front of the table. -/
def getProcessIndex : Option (Option ℤ) :=
  (s.findIndex pid s.processQuantity.toNat s.current).map (fun index => index.filter (· ≠ -1))

def changeThreadState (st : ProcessState) : Option Scheduler :=
  (s.getProcessIndex pid).bind (fun index => match index with
    | none => some s
    | some i => (s.process? i).bind (fun p =>
      if 0 ≤ thread ∧ thread < maxThreads then
        (p.threads thread).thread.map (fun _ => s.setProcess i (some (p.setThreadState thread st)))
      else some s))

/-- The loop of `changeChildrenToOrphan`. -/
def adopt (pid index : ℤ) : ℕ → ℤ → Scheduler → Option Scheduler
  | 0, _, s => some s
  | n+1, next, s => (s.process? next).bind (fun p =>
    if p.ppid = pid then (s.process? index).bind (fun q =>
      adopt pid index n (s.link next) (s.setProcess next (some { p with ppid := q.ppid })))
    else adopt pid index n (s.link next) s)

def changeChildrenToOrphan : Option Scheduler := (s.getProcessIndex pid).bind (fun index =>
  adopt pid (index.getD (-1)) s.processQuantity.toNat s.current s)

/-- The stack pointer it stores is left out. -/
def switchToKernelStack : Option Scheduler :=
  (s.process? s.current).bind (fun p => (p.threads p.currentThread).thread.map (fun _ => s))

end Scheduler

/-- How far a call gets: to its end, to a yield on its way, or to a process that is behind
no pointer of the table. -/
inductive Ending
  | returned | yields | lost
  deriving DecidableEq, Repr

structure Session where
  scheduler : Scheduler
  /-- The pid of the process behind the pointer, if it has been found in the table. -/
  foreground : Option ℤ
  nextPid : ℤ

namespace Session
variable (s : Session) (pid : ℤ)

/-- The record lies in fresh memory. -/
def createProcess (memory : ProcessRecord) (memoryBase : ℕ) : Option (ProcessRecord × Session) :=
  s.scheduler.getpid.bind (fun ppid => (increment s.nextPid).map (fun next =>
    ({ memory with
      pid := s.nextPid
      ppid := ppid
      currentThread := 0
      threads := fun i =>
        if i = 0 then ⟨0,some ⟨.ready,notWaiting,memoryBase⟩⟩
        else if 0 ≤ i ∧ i < maxThreads then { memory.threads i with thread := none }
        else memory.threads i },{ s with nextPid := next })))

/-- The cached slot may be the sentinel of a table that has been full. -/
def addProcess (p : ProcessRecord) : Session :=
  { s with scheduler := (s.scheduler.addProcess p).1 }

def setForeground : Option Session :=
  (s.scheduler.getProcessIndex pid).map (fun index =>
    { s with foreground := (s.scheduler.process? (index.getD (-1))).map ProcessRecord.pid })

def foregroundProcess : Option ProcessRecord :=
  s.foreground.bind (fun pid => (s.scheduler.getProcessIndex pid).bind (fun index =>
    (s.scheduler.process? (index.getD (-1))).filter (·.pid = pid)))

def changeForegroundState (st : ProcessState) : Option Session :=
  s.foregroundProcess.bind (fun p =>
    (s.scheduler.changeThreadState p.pid p.currentThread st).map (fun d => { s with scheduler := d }))

def startSystem (init shell : ProcessRecord) (a b : ℕ) : Option Session := do
  let s : Session := ⟨Scheduler.initializeScheduler,none,1⟩
  let (p,s) ← s.createProcess init a
  let (q,s) ← s.createProcess shell b
  ((s.addProcess p).addProcess q).setForeground q.pid

/-- `sysPipeStd` does the same in the foreground, before it opens its pipe. -/
def sysRunProcess (memory : ProcessRecord) (memoryBase : ℕ) (background : Bool) :
    Option Session := do
  let (p,s) ← s.createProcess memory memoryBase
  let s := s.addProcess p
  if background then some s
  else (s.changeForegroundState .sleeping).bind (fun s => s.setForeground p.pid)

/-- The slot that a creation is about to fill is one of the table. In an empty table and in a
full one the cached slot is not looked at. -/
def HasSlot : Prop := s.scheduler.processQuantity ≠ 0 →
  s.scheduler.processQuantity ≠ maxProcesses → Scheduler.InTable s.scheduler.firstAvailableSpace

instance : Decidable s.HasSlot := inferInstanceAs (Decidable (_ → _ → _))

/-- `killProcess` from `removeProcess` on. The cleanup of the blocked lists in front of it is
left out. -/
def removeProcess (index : ℤ) : Option (Ending × Session) :=
  (s.scheduler.process? index).bind (fun q => (s.scheduler.detach q).map (fun x =>
    (if x.1 then .yields else .returned,{ s with scheduler := x.2 })))

/-- The part of `killProcess` for a process in the foreground. -/
def leaveForeground (index : ℤ) : Option (Ending × Session) := do
  let p ← s.scheduler.process? index
  let s ← s.setForeground p.ppid
  if s.foreground = none then some (.lost,s)
  else (s.changeForegroundState .ready).bind (fun s => s.removeProcess index)

def killProcess : Option (Ending × Session) :=
  (s.scheduler.getProcessIndex pid).bind (fun index => match index with
    | none => some (.returned,s)
    | some i => (s.scheduler.changeChildrenToOrphan pid).bind (fun d => s.foreground.bind (fun fg =>
      if fg = pid then leaveForeground { s with scheduler := d } i
      else removeProcess { s with scheduler := d } i)))

/-- The keys Ctrl and C, up to the yield at the end. -/
def killForeground : Option (Ending × Session) := s.foreground.bind s.killProcess

def killCurrent : Option (Ending × Session) :=
  (s.scheduler.process? s.scheduler.current).bind (fun p => s.killProcess p.pid)

end Session
end ComplexOS
