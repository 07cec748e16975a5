import Mathlib.Logic.Function.Basic
import Mathlib.Data.Int.Init

/-! # Processes and their threads

The process table is read here the way `getProcess` answers it: by pid. The ring
of slots behind that lookup belongs to the scheduler.
-/
namespace ComplexOS

inductive ProcessState
  | running | ready | blocked | sleeping
  deriving DecidableEq, Repr

structure ThreadId where
  pid : ℤ
  thread : ℤ
  deriving DecidableEq, Repr

def notUsed : ℤ := -1
def maxThreads : ℤ := 32
def notWaiting : ℤ := -1

structure Thread where
  state : ProcessState
  waitingThread : ℤ
  memoryBase : ℕ
  deriving Repr

/-- `address` is where the record lies in the heap, the argument of the final free. -/
structure Process where
  ppid : ℤ
  currentThread : ℤ
  threads : ℤ → Option Thread
  address : ℕ

namespace Processes
variable (ps : ℤ → Option Process) (t u : ThreadId) (st : ProcessState)

def thread? : Option Thread := (ps t.pid).bind (fun p => p.threads t.thread)

def threadState : Option ProcessState := (thread? ps t).map Thread.state

structure Real : Prop where
  pid : 0 ≤ t.pid
  low : 0 ≤ t.thread
  high : t.thread < maxThreads
  isSome : (threadState ps t).isSome

instance : Decidable (Real ps t) :=
  decidable_of_iff (0 ≤ t.pid ∧ 0 ≤ t.thread ∧ t.thread < maxThreads ∧ (threadState ps t).isSome)
    ⟨fun h => ⟨h.1,h.2.1,h.2.2.1,h.2.2.2⟩,fun h => ⟨h.pid,h.low,h.high,h.isSome⟩⟩

def setThreadState : ℤ → Option Process :=
  Function.update ps t.pid ((ps t.pid).map (fun p => { p with
    threads := Function.update p.threads t.thread
      ((p.threads t.thread).map (fun th => { th with state := st })) }))

/-- `none` is the store through the NULL thread pointer of an empty slot. -/
def changeThreadState : Option (ℤ → Option Process) :=
  match ps t.pid with
  | none => some ps
  | some p =>
    if 0 ≤ t.thread ∧ t.thread < maxThreads then
      match p.threads t.thread with
      | none => none
      | some _ => some (setThreadState ps t st)
    else some ps

/-- The thread slot `getCurrentThread` reads, `-1` when there is no process. -/
def getCurrentThread (pid : ℤ) : ℤ := ((ps pid).map Process.currentThread).getD (-1)

def demote : ℤ → Option Process :=
  if threadState ps t = some .running then setThreadState ps t .ready else ps

def promote : ℤ → Option Process :=
  setThreadState (Function.update ps t.pid
    ((ps t.pid).map (fun p => { p with currentThread := t.thread }))) t .running

variable {ps t u st}

theorem thread?_set : thread? (setThreadState ps t st) u =
    if u = t then (thread? ps t).map (fun th => { th with state := st }) else thread? ps u := by
  obtain ⟨up,ut⟩ := u
  obtain ⟨tp,tt⟩ := t
  by_cases hp : up = tp
  · subst hp
    cases hq : ps up with
    | none => simp [thread?,setThreadState,hq]
    | some p =>
      by_cases ht : ut = tt
      · subst ht
        simp [thread?,setThreadState,hq]
      · simp [thread?,setThreadState,hq,ht]
  · simp [thread?,setThreadState,hp]

@[simp] theorem threadState_set_self :
    threadState (setThreadState ps t st) t = (threadState ps t).map (fun _ => st) := by
  simp [threadState,thread?_set,Function.comp_def]

theorem threadState_set_of_ne (h : u ≠ t) :
    threadState (setThreadState ps t st) u = threadState ps u := by
  simp [threadState,thread?_set,h]

@[simp] theorem isSome_threadState_set :
    (threadState (setThreadState ps t st) u).isSome = (threadState ps u).isSome := by
  by_cases h : u = t
  · simp [h]
  · rw [threadState_set_of_ne h]

@[simp] theorem getCurrentThread_set (pid : ℤ) :
    getCurrentThread (setThreadState ps t st) pid = getCurrentThread ps pid := by
  by_cases h : pid = t.pid
  · subst h
    cases hq : ps t.pid <;> simp [getCurrentThread,setThreadState,hq]
  · simp [getCurrentThread,setThreadState,h]

@[simp] theorem real_set : Real (setThreadState ps t st) u ↔ Real ps u :=
  ⟨fun h => ⟨h.pid,h.low,h.high,by simpa using h.isSome⟩,
    fun h => ⟨h.pid,h.low,h.high,by simpa using h.isSome⟩⟩

theorem changeThreadState_real (h : Real ps t) :
    changeThreadState ps t st = some (setThreadState ps t st) := by
  have hs := h.isSome
  cases hp : ps t.pid with
  | none => simp [threadState,thread?,hp] at hs
  | some p =>
    cases ht : p.threads t.thread with
    | none => simp [threadState,thread?,hp,ht] at hs
    | some th => simp [changeThreadState,hp,ht,h.low,h.high]

/-- Whatever the arguments, the call sets one thread's state or changes nothing. -/
theorem changeThreadState_cases {ps' : ℤ → Option Process}
    (h : changeThreadState ps t st = some ps') : ps' = setThreadState ps t st ∨ ps' = ps := by
  unfold changeThreadState at h
  split at h
  · exact Or.inr (Option.some.inj h).symm
  · split at h
    · split at h
      · cases h
      · exact Or.inl (Option.some.inj h).symm
    · exact Or.inr (Option.some.inj h).symm

theorem threadState_demote : threadState (demote ps t) u =
    if u = t ∧ threadState ps u = some .running then some .ready else threadState ps u := by
  by_cases hu : u = t
  · subst hu
    by_cases hr : threadState ps u = some .running <;> simp [demote,hr]
  · have hne (st : ProcessState) : threadState (setThreadState ps t st) u = threadState ps u :=
      threadState_set_of_ne hu
    simp only [demote,hu,false_and,if_false]
    split <;> simp [hne]

theorem thread?_currentThread (pid i : ℤ) : thread? (Function.update ps pid
    ((ps pid).map (fun p => { p with currentThread := i }))) u = thread? ps u := by
  by_cases h : u.pid = pid
  · subst h
    cases hp : ps u.pid <;> simp [thread?,hp]
  · simp [thread?,h]

theorem threadState_promote (h : (threadState ps t).isSome) : threadState (promote ps t) u =
    if u = t then some .running else threadState ps u := by
  by_cases hu : u = t
  · subst hu
    obtain ⟨x,hx⟩ := Option.isSome_iff_exists.mp h
    rw [threadState] at hx
    simp [promote,threadState,thread?_set,thread?_currentThread,Function.comp_def]
    cases ht : thread? ps u <;> simp [ht] at hx ⊢
  · rw [promote,threadState_set_of_ne hu,if_neg hu]
    simp only [threadState,thread?_currentThread]

theorem isSome_of_threadState (h : (threadState ps t).isSome) : (ps t.pid).isSome := by
  rw [threadState,thread?] at h
  cases hp : ps t.pid with
  | none => simp [hp] at h
  | some p => rfl

theorem getCurrentThread_promote (h : (threadState ps t).isSome) :
    getCurrentThread (promote ps t) t.pid = t.thread := by
  obtain ⟨p,hp⟩ := Option.isSome_iff_exists.mp (isSome_of_threadState h)
  rw [promote,getCurrentThread_set]
  simp [getCurrentThread,hp]

def twoThreads : ℤ → Option Process := fun pid =>
  if pid = 1 ∨ pid = 2 then some
    { ppid := 0, currentThread := 0, address := 0
      threads := fun i => if i = 0 then
        some ⟨if pid = 1 then .running else .ready,notWaiting,0⟩ else none }
  else none

end Processes
end ComplexOS
