import ComplexOS.Kernel.System
import ComplexOS.Library.Runs

/-! # System calls, interrupts and switches

A call is a stack of commands: what a function of the source does between two of its
yields and calls is one command, which may leave further ones to do. The stack of a
thread waits while another thread runs. A state is what the scheduler looks at: who has the
processor goes on, BLOCKED or not, as far as the next yield, and behind that as soon as it
has been given the processor again. Indices and identities that the source takes
without a check are checked here, and outside the tables there is no step.
-/
namespace ComplexOS

inductive Key
  | enter | ctrlC | backspace | char | left | right
  deriving DecidableEq, Repr

inductive Command
  | mutexDown (mutex : ℤ) (t : ThreadId)
  | mutexUp (mutex : ℤ) (t : ThreadId)
  | releaseMutex (mutex : ℤ) (t : ThreadId)
  | releaseMutexBody (mutex : ℤ) (t : ThreadId)
  /-- `unlockProcess(mutex)` for as long as the list of `q` has a count. -/
  | unlockWhile (q : Queue) (mutex : ℤ)
  | wait (semaphore : ℤ)
  | waitBody (semaphore : ℤ)
  | signal (semaphore : ℤ)
  | signalBody (semaphore : ℤ)
  | releaseSemaphore (semaphore : ℤ) (t : ThreadId)
  | releaseSemaphoreBody (semaphore : ℤ) (t : ThreadId)
  | disownSemaphore (semaphore : ℤ)
  | removeFromMutexes (v : Victim) (t : ThreadId)
  | releaseOwnedMutex (v : Victim) (i : ℤ) (t : ThreadId)
  | upHeldMutex (v : Victim) (i : ℤ)
  | removeBlockedFromMutex (v : Victim) (i : ℤ) (j : ℕ)
  | removeFromSemaphores (v : Victim) (t : ThreadId)
  | releaseOwnedSemaphore (v : Victim) (i : ℤ) (t : ThreadId)
  | removeBlockedFromSemaphore (v : Victim) (i : ℤ) (j : ℕ)
  | killThread (t : ThreadId)
  | terminateThread (t : ThreadId)
  | killProcess (pid : ℤ)
  | removePidFromMutexes (v : Victim)
  | removePidFromSemaphores (v : Victim)
  | removeProcess (pid : ℤ)
  | sleep (milliseconds : ℕ)
  | decrementTicks (i : ℕ) (current : ℤ)
  | removeSleepingProcess (t : ThreadId)
  | nextSleeper (i : ℕ) (current : ℤ)
  | sysRead (size : ℕ) (noBlock : Bool)
  | blockCaller
  | readBuffer
  | blockRead
  | takeChar
  | nonBlockRead
  | key (key : Key)
  | yield

/-- The calls of user code, on the descriptor `0` and the running thread's identity. -/
inductive Syscall
  | mutexDown (mutex : ℤ)
  | mutexUp (mutex : ℤ)
  | releaseMutex (mutex : ℤ)
  | wait (semaphore : ℤ)
  | signal (semaphore : ℤ)
  | releaseSemaphore (semaphore : ℤ)
  | sleep (milliseconds : ℕ)
  | read (size : ℕ) (noBlock : Bool)
  | kill (pid : ℤ)
  | killThread (thread : ℤ)
  deriving DecidableEq, Repr

def Syscall.commands (t : ThreadId) : Syscall → List Command
  | .mutexDown mutex => [.mutexDown mutex t]
  | .mutexUp mutex => [.mutexUp mutex t]
  | .releaseMutex mutex => [.releaseMutex mutex t]
  | .wait semaphore => [.wait semaphore]
  | .signal semaphore => [.signal semaphore]
  | .releaseSemaphore semaphore => [.releaseSemaphore semaphore t]
  | .sleep milliseconds => [.sleep milliseconds]
  | .read size noBlock => [.sysRead size noBlock]
  | .kill pid => [.killProcess pid,.yield]
  | .killThread thread => [.terminateThread ⟨t.pid,thread⟩,.yield]

inductive Event
  | syscall (call : Syscall)
  /-- The thread that has the processor goes on with its call. -/
  | run
  | dispatch (t : ThreadId)
  | tick
  | key (key : Key)
  deriving DecidableEq, Repr

instance (q : Queue) : Decidable q.InRange := by
  cases q <;> simp only [Queue.InRange] <;> infer_instance

def sweepMutexes (v : Victim) (t : ThreadId) : List Command :=
  (List.range maxMutexes.toNat).flatMap (fun i =>
    .releaseOwnedMutex v i t::.upHeldMutex v i::
      (List.range maxBlocked).map (fun j => .removeBlockedFromMutex v i j))

def sweepSemaphores (v : Victim) (t : ThreadId) : List Command :=
  (List.range maxSemaphores.toNat).flatMap (fun i =>
    .releaseOwnedSemaphore v i t::
      (List.range maxBlocked).map (fun j => .removeBlockedFromSemaphore v i j))

abbrev Machine := System Command

namespace Machine
variable (s : Machine)

def caller : ThreadId := s.kernel.caller

def Alive : Prop := (s.kernel.threadState s.caller).isSome

instance : Decidable s.Alive := inferInstanceAs (Decidable (_ = _))

def goOn (cs : List Command) : Option (Machine × List Command) := some (s,cs)

def withKernel (cs : List Command) (k : Kernel) : Machine × List Command :=
  ({ s with kernel := k },cs)

/-- Who has been queued yields once it has done `cs`, and after `full` the thread is killed
before that. -/
def slept (t : ThreadId) (q : Queue) (cs : List Command) (x : DownOutcome × Kernel) :
    Machine × List Command :=
  ({ s with kernel := x.2, why := Kernel.slept s.why x.1 t q },
    match x.1 with
    | .returned => cs
    | .queued => cs++[.yield]
    | .full => .killThread t::cs++[.yield])

def exec : Command → Option (Machine × List Command)
  | .mutexDown mutex t =>
    if t.used then (s.kernel.mutexDown mutex t).map (s.slept t (.mutex mutex) []) else none
  | .mutexUp mutex t => (s.kernel.mutexUp mutex t).map (s.withKernel [])
  | .releaseMutex mutex t =>
    s.goOn [.mutexDown adminMutex t,.releaseMutexBody mutex t,.mutexUp adminMutex t]
  | .releaseMutexBody mutex t =>
    if s.kernel.isValidMutex mutex ∧ (s.kernel.mutexes mutex).creator = t then
      some (s.withKernel [.unlockWhile (.mutex mutex) mutex] (s.kernel.disownMutex mutex))
    else s.goOn []
  | .unlockWhile q mutex =>
    if q.InRange ∧ (Queue.mutex mutex).InRange then
      if (s.kernel.list q).blockedQuantity > 0 then
        (s.kernel.unlockProcess mutex).map (fun x => s.withKernel [.unlockWhile q mutex] x.2)
      else s.goOn []
    else none
  | .wait semaphore =>
    s.goOn (if s.kernel.isValidSemaphore semaphore then
      [.mutexDown (s.kernel.semaphores semaphore).mutex s.caller,.waitBody semaphore] else [])
  -- a thread that is gone has a yield before it would come here, or to `sleep` or `blockCaller`
  | .waitBody semaphore =>
    if (Queue.semaphore semaphore).InRange ∧ s.Alive then
      (s.kernel.waitBody semaphore s.caller).map (s.slept s.caller (.semaphore semaphore)
        [.mutexUp (s.kernel.semaphores semaphore).mutex s.caller])
    else none
  | .signal semaphore =>
    s.goOn (if s.kernel.isValidSemaphore semaphore then
      [.mutexDown (s.kernel.semaphores semaphore).mutex s.caller,.signalBody semaphore] else [])
  | .signalBody semaphore =>
    if (Queue.semaphore semaphore).InRange then
      (s.kernel.signalBody semaphore).map
        (s.withKernel [.mutexUp (s.kernel.semaphores semaphore).mutex s.caller])
    else none
  | .releaseSemaphore semaphore t =>
    s.goOn [.mutexDown s.semaphoreMutex t,.releaseSemaphoreBody semaphore t,
      .mutexUp s.semaphoreMutex t]
  -- the loop reads the semaphore's count and wakes from the mutex of the same index
  | .releaseSemaphoreBody semaphore t =>
    s.goOn (if s.kernel.isValidSemaphore semaphore ∧
        (s.kernel.semaphores semaphore).creator = t then
      [.releaseMutex (s.kernel.semaphores semaphore).mutex t,.disownSemaphore semaphore,
        .unlockWhile (.semaphore semaphore) semaphore] else [])
  | .disownSemaphore semaphore => some (s.withKernel [] (s.kernel.disownSemaphore semaphore))
  | .removeFromMutexes v t =>
    s.goOn (.mutexDown adminMutex t::sweepMutexes v t++[.mutexUp adminMutex t])
  | .releaseOwnedMutex v i t =>
    s.goOn (if v.Covers (s.kernel.mutexes i).creator then [.releaseMutex i t] else [])
  -- the pid of the holder is passed on as its thread
  | .upHeldMutex v i =>
    s.goOn (if v.Covers (s.kernel.mutexes i).lockProcess then
      [.mutexUp i ⟨v.pid,(s.kernel.mutexes i).lockProcess.pid⟩] else [])
  | .removeBlockedFromMutex v i j =>
    if (Queue.mutex i).InRange ∧ j < maxBlocked then
      (s.kernel.removeBlockedFromMutex v i j).map (s.withKernel [])
    else none
  | .removeFromSemaphores v t =>
    s.goOn (.mutexDown s.semaphoreMutex t::sweepSemaphores v t++[.mutexUp s.semaphoreMutex t])
  | .releaseOwnedSemaphore v i t =>
    s.goOn (if v.Covers (s.kernel.semaphores i).creator then [.releaseSemaphore i t] else [])
  | .removeBlockedFromSemaphore v i j =>
    if (Queue.semaphore i).InRange ∧ j < maxBlocked then
      (s.kernel.removeBlockedFromSemaphore v i j).map (s.withKernel [])
    else none
  | .killThread t =>
    if h : t.pid ≠ notUsed ∧ (s.kernel.processes t.pid).isSome then
      s.goOn [.removeFromMutexes ⟨t.pid,some t.thread,h.1⟩ t,
        .removeFromSemaphores ⟨t.pid,some t.thread,h.1⟩ t,.terminateThread t]
    else s.goOn []
  -- the first thread takes the current process with it
  | .terminateThread t =>
    (s.kernel.processes t.pid).bind (fun p =>
      if t.thread = 0 then s.goOn [.killProcess s.kernel.current,.yield]
      else if (p.threads t.thread).isSome then
        some (s.withKernel [] (s.kernel.terminateThread t p))
      else s.goOn [])
  | .killProcess pid =>
    match s.kernel.processes pid with
    | none => s.goOn []
    | some p =>
      if h : pid ≠ notUsed then
        (s.leaveForeground pid p).map (fun s => (s,[.removePidFromMutexes ⟨pid,none,h⟩,
          .removePidFromSemaphores ⟨pid,none,h⟩,.removeProcess pid]))
      else s.goOn []
  | .removePidFromMutexes v =>
    (s.kernel.processes v.pid).bind (fun p => s.goOn [.removeFromMutexes v ⟨v.pid,p.currentThread⟩])
  | .removePidFromSemaphores v =>
    (s.kernel.processes v.pid).bind (fun p =>
      s.goOn [.removeFromSemaphores v ⟨v.pid,p.currentThread⟩])
  | .removeProcess pid => some (s.withKernel (if pid = s.kernel.current then [.yield] else [])
      (s.kernel.removeProcess pid))
  | .sleep milliseconds =>
    if s.Alive then
      (s.clock.sleep s.caller milliseconds).map (fun T =>
        (s.setClock T,if 0 < milliseconds/55 then [.yield] else []))
    else none
  | .decrementTicks i current =>
    if i < s.timer.sleeping then
      let e := Timer.decremented (s.timer.sleepingProcesses current)
      some ({ s with timer := s.timer.setEntry current e },
        (if e.tickQuantity = 0 then [.removeSleepingProcess e.id] else [])++
          [.nextSleeper i current])
    else s.goOn []
  | .removeSleepingProcess t =>
    (s.clock.removeSleepingProcess t).map (fun T => (s.setClock T,[]))
  | .nextSleeper i current =>
    s.goOn [.decrementTicks (i+1) (s.timer.sleepingProcesses current).next]
  | .sysRead size noBlock => (s.isForeground s.kernel.getpid).bind (fun fg =>
      s.goOn ((if fg then [] else [.blockCaller])++
        List.replicate size (if noBlock then .nonBlockRead else .readBuffer)))
  | .blockCaller => if s.Alive then s.blockCaller.map (fun s => (s,[.yield])) else none
  | .readBuffer =>
    s.goOn ((if s.terminal.readIndex ≥ s.terminal.startIndex then [.blockRead] else [])++
      [.takeChar])
  -- the foreground is BLOCKED, the caller yields
  | .blockRead => s.blockRead.map (fun s' =>
      (s',if s.foregroundThread.bind s.kernel.threadState = some .blocked then [] else [.yield]))
  | .takeChar => some ({ s with terminal := s.terminal.take s.terminal.startIndex },[])
  | .nonBlockRead => some ({ s with terminal := s.terminal.take s.terminal.writeIndex },[])
  | .key .enter => { s with terminal := s.terminal.newLine }.unblockRead.map (fun s => (s,[]))
  | .key .ctrlC => s.goOn (s.foreground.toList.map .killProcess++[.yield])
  | .key .backspace => some ({ s with terminal := s.terminal.backspace },[])
  | .key .char => some ({ s with terminal := s.terminal.char },[])
  | .key .left => some ({ s with terminal := s.terminal.keyboardLeft },[])
  | .key .right => some ({ s with terminal := s.terminal.keyboardRight },[])
  | .yield => none

def push (t : ThreadId) (cs : List Command) : Machine :=
  { s with calls := Function.update s.calls t (cs++s.calls t) }

/-- Behind a yield the thread has the processor again. -/
def resumed : List Command → List Command
  | .yield::cs => cs
  | cs => cs

/-- Interrupts and switches may come between any two commands. A thread that is not
READY gets the processor only if it has it already: that is what the search for a READY
thread ends with when there is none. -/
def step : Event → Option Machine
  | .syscall call =>
    if s.Alive ∧ s.calls s.caller = [] then some (s.push s.caller (call.commands s.caller))
    else none
  | .run =>
    match s.calls s.caller with
    | [] => none
    | c::cs => (exec { s with calls := Function.update s.calls s.caller cs } c).map
        (fun x => x.1.push s.caller x.2)
  | .dispatch t =>
    if s.kernel.threadState t = some .ready ∨ (t = s.caller ∧ (s.kernel.threadState t).isSome) then
      some { s with
        kernel := s.kernel.dispatch t
        calls := Function.update s.calls t (resumed (s.calls t)) }
    else none
  | .tick => some (s.push s.caller [.decrementTicks 0 s.timer.first])
  | .key key => some (s.push s.caller [.key key])

end Machine
end ComplexOS
