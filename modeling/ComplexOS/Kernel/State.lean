import ComplexOS.Kernel.BlockedList

/-! # The state shared by the blocking primitives

The tables of `mutex.c` and `semaphore.c` over the process table. Indices are the
`int`s of the source, so the tables are functions on all of `ℤ`; the functions of
the source check the range before they index.
-/
namespace ComplexOS

def maxMutexes : ℤ := 128
def maxSemaphores : ℤ := 64
def maxName : ℕ := 50
def fullList : ℤ := -3
def locked : ℤ := 0
def unlocked : ℤ := 1
/-- `INT_MAX`. Signed overflow has no defined result, so it is no step. -/
def maxInt : ℤ := 2147483647

def increment (v : ℤ) : Option ℤ := if v < maxInt then some (v+1) else none
def decrement (v : ℤ) : Option ℤ := if -maxInt-1 < v then some (v-1) else none

structure Mutex where
  creator : ThreadId
  lockProcess : ThreadId
  name : ℕ → UInt8
  list : BlockedList
  value : ℤ

structure Semaphore where
  creator : ThreadId
  name : ℕ → UInt8
  list : BlockedList
  value : ℤ
  mutex : ℤ

structure Kernel where
  processes : ℤ → Option Process
  /-- The pid of the process that runs, `-1` before there is one. -/
  current : ℤ
  mutexes : ℤ → Mutex
  firstAvailableMutex : ℤ
  usedMutexes : ℤ
  semaphores : ℤ → Semaphore

def adminMutex : ℤ := 0

namespace Kernel
variable (k : Kernel) (t : ThreadId) (st : ProcessState)

def getpid : ℤ := k.current
def getCurrentThread : ℤ := Processes.getCurrentThread k.processes k.current

/-- The identity under which the running thread calls the primitives. -/
def caller : ThreadId := ⟨k.getpid,k.getCurrentThread⟩

def threadState : Option ProcessState := Processes.threadState k.processes t

def changeThreadState : Option Kernel :=
  (Processes.changeThreadState k.processes t st).map (fun ps => { k with processes := ps })

def setMutex (mutex : ℤ) (m : Mutex) : Kernel :=
  { k with mutexes := Function.update k.mutexes mutex m }

def setSemaphore (semaphore : ℤ) (s : Semaphore) : Kernel :=
  { k with semaphores := Function.update k.semaphores semaphore s }

/-- A context switch to another thread: what `nextProcess` does once it has chosen
`t`. The thread that runs is demoted only if it is still RUNNING. -/
def dispatch : Kernel :=
  { k with processes := Processes.promote (Processes.demote k.processes k.caller) t
           current := t.pid }

@[simp] theorem setMutex_mutexes_self (mutex : ℤ) (m : Mutex) :
    (k.setMutex mutex m).mutexes mutex = m := by simp [setMutex]

@[simp] theorem setMutex_processes (mutex : ℤ) (m : Mutex) :
    (k.setMutex mutex m).processes = k.processes := rfl

@[simp] theorem setMutex_current (mutex : ℤ) (m : Mutex) :
    (k.setMutex mutex m).current = k.current := rfl

@[simp] theorem setMutex_semaphores (mutex : ℤ) (m : Mutex) :
    (k.setMutex mutex m).semaphores = k.semaphores := rfl

theorem setMutex_mutexes_of_ne {mutex i : ℤ} (h : i ≠ mutex) (m : Mutex) :
    (k.setMutex mutex m).mutexes i = k.mutexes i := by simp [setMutex,h]

@[simp] theorem setSemaphore_semaphores_self (semaphore : ℤ) (s : Semaphore) :
    (k.setSemaphore semaphore s).semaphores semaphore = s := by simp [setSemaphore]

@[simp] theorem setSemaphore_processes (semaphore : ℤ) (s : Semaphore) :
    (k.setSemaphore semaphore s).processes = k.processes := rfl

@[simp] theorem setSemaphore_current (semaphore : ℤ) (s : Semaphore) :
    (k.setSemaphore semaphore s).current = k.current := rfl

@[simp] theorem setSemaphore_mutexes (semaphore : ℤ) (s : Semaphore) :
    (k.setSemaphore semaphore s).mutexes = k.mutexes := rfl

@[simp] theorem dispatch_mutexes : (k.dispatch t).mutexes = k.mutexes := rfl
@[simp] theorem dispatch_semaphores : (k.dispatch t).semaphores = k.semaphores := rfl
@[simp] theorem dispatch_current : (k.dispatch t).current = t.pid := rfl

variable {k t st} {u : ThreadId}

theorem changeThreadState_real (h : Processes.Real k.processes t) :
    k.changeThreadState t st =
      some { k with processes := Processes.setThreadState k.processes t st } := by
  simp [changeThreadState,Processes.changeThreadState_real h]

theorem isSome_demote (h : (k.threadState t).isSome) :
    (Processes.threadState (Processes.demote k.processes k.caller) t).isSome := by
  rw [Processes.threadState_demote]
  split
  · rfl
  · exact h

/-- After the switch `t` runs, the old thread is READY if it was RUNNING, and nobody
else has changed. -/
theorem threadState_dispatch (h : (k.threadState t).isSome) :
    (k.dispatch t).threadState u = if u = t then some .running
      else if u = k.caller ∧ k.threadState u = some .running then some .ready
      else k.threadState u := by
  rw [threadState,dispatch,Processes.threadState_promote (isSome_demote h),
    Processes.threadState_demote]
  rfl

/-- Switches to READY threads leave the BLOCKED ones alone. -/
theorem dispatch_blocked (hr : k.threadState t = some .ready)
    (hb : k.threadState u = some .blocked) : (k.dispatch t).threadState u = some .blocked := by
  rw [threadState_dispatch (by rw [hr]; rfl),if_neg,if_neg]
  · exact hb
  · rintro ⟨-,hx⟩
    rw [hb] at hx
    cases hx
  · rintro rfl
    rw [hb] at hr
    cases hr

theorem isSome_dispatch (h : (k.threadState t).isSome) :
    ((k.dispatch t).threadState u).isSome = (k.threadState u).isSome := by
  rw [threadState_dispatch h]
  split
  · rename_i hu
    rw [hu,h]
    rfl
  · split
    · rename_i hx
      rw [hx.2]
      rfl
    · rfl

theorem real_dispatch (h : (k.threadState t).isSome) :
    Processes.Real (k.dispatch t).processes u ↔ Processes.Real k.processes u :=
  ⟨fun r => ⟨r.pid,r.low,r.high,isSome_dispatch h ▸ r.isSome⟩,
    fun r => ⟨r.pid,r.low,r.high,(isSome_dispatch h).symm ▸ r.isSome⟩⟩

@[simp] theorem caller_dispatch (h : (k.threadState t).isSome) : (k.dispatch t).caller = t := by
  have hcur := Processes.getCurrentThread_promote (isSome_demote h)
  rw [caller,getpid,getCurrentThread,dispatch_current]
  exact congrArg (ThreadId.mk t.pid) hcur

/-- Between two kernels only the states of some threads, and mutexes, have changed. -/
structure Frame (changed : Finset ThreadId) (k k' : Kernel) : Prop where
  semaphores : k'.semaphores = k.semaphores
  caller : k'.caller = k.caller
  state : ∀ v, v ∉ changed → k'.threadState v = k.threadState v
  real : ∀ v, Processes.Real k'.processes v ↔ Processes.Real k.processes v

variable {k' : Kernel} {changed : Finset ThreadId}

theorem threadState_of_set (hp : k'.processes = Processes.setThreadState k.processes t st)
    (ht : (k.threadState t).isSome) : k'.threadState t = some st := by
  obtain ⟨x,hx⟩ := Option.isSome_iff_exists.mp ht
  rw [threadState] at hx
  rw [threadState,hp,Processes.threadState_set_self,hx]
  rfl

theorem threadState_of_set_ne (hp : k'.processes = Processes.setThreadState k.processes t st)
    (hu : u ≠ t) : k'.threadState u = k.threadState u := by
  rw [threadState,hp,Processes.threadState_set_of_ne hu,threadState]

theorem Frame.of_eq (hp : k'.processes = k.processes) (hc : k'.current = k.current)
    (hs : k'.semaphores = k.semaphores) : Frame changed k k' :=
  ⟨hs,by simp [Kernel.caller,getpid,getCurrentThread,hp,hc],
    fun v _ => by simp [Kernel.threadState,hp],fun v => by rw [hp]⟩

theorem Frame.of_set (hp : k'.processes = Processes.setThreadState k.processes t st)
    (hc : k'.current = k.current) (hs : k'.semaphores = k.semaphores) (ht : t ∈ changed) :
    Frame changed k k' := by
  refine ⟨hs,by simp [Kernel.caller,getpid,getCurrentThread,hp,hc],fun v hv => ?_,
    fun v => by simp [hp]⟩
  exact threadState_of_set_ne hp (fun h => hv (h ▸ ht))

end Kernel
end ComplexOS
