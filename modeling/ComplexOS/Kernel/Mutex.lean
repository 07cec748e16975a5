import ComplexOS.Kernel.State

/-! # The kernel mutex

`mutex.c`, with the part of a call that runs after its `yield` left to the caller:
`mutexDown` answers how the call goes on. Interrupt gates keep each of these
functions from being interrupted, so one application is one step of a run.
-/
namespace ComplexOS

/-- How a call of `mutexDown` continues: it returns, it yields with the thread on
the blocked list, or the list was full and `killThread` comes before the yield. -/
inductive DownOutcome
  | returned | queued | full
  deriving DecidableEq, Repr

def Mutex.clear (m : Mutex) : Mutex :=
  { creator := { m.creator with pid := notUsed }
    lockProcess := { m.lockProcess with pid := notUsed }
    name := Function.update m.name 0 0
    list := ⟨fun i => if i < maxBlocked then { m.list.blocked i with pid := notUsed }
      else m.list.blocked i,0⟩
    value := unlocked }

theorem Mutex.clear_list (m : Mutex) : m.clear.list.Holds ∅ := by
  refine ⟨rfl,?_,by simp,?_,by simp⟩
  · intro i hi hu
    simp [Mutex.clear,hi,ThreadId.used] at hu
  · intro i j hi _ hu
    simp [Mutex.clear,hi,ThreadId.used] at hu

namespace Kernel
variable (k : Kernel) (mutex : ℤ) (t : ThreadId)

def isValidMutex : Prop :=
  0 ≤ mutex ∧ mutex < maxMutexes ∧ (k.mutexes mutex).creator.pid ≠ notUsed

instance : Decidable (k.isValidMutex mutex) :=
  inferInstanceAs (Decidable (0 ≤ mutex ∧ mutex < maxMutexes ∧ _))

/-- The exchange is 64 bits wide and `value` is the last `int` of its slot, so the
creator's pid of the next slot is overwritten with `0` as well. -/
def testAndSetLock : Kernel :=
  let k := k.setMutex mutex { k.mutexes mutex with value := locked }
  let m := k.mutexes (mutex+1)
  k.setMutex (mutex+1) { m with creator := { m.creator with pid := 0 } }

def addToBlocked : Option Kernel :=
  let m := k.mutexes mutex
  (m.list.add t).map (fun l => k.setMutex mutex { m with list := l })

def mutexDown : Option (DownOutcome × Kernel) :=
  if k.isValidMutex mutex then
    let value := (k.mutexes mutex).value
    let k := k.testAndSetLock mutex
    if value = locked then
      match k.addToBlocked mutex t with
      | some k => (k.changeThreadState t .blocked).map (fun k => (.queued,k))
      | none => some (.full,k)
    else some (.returned,k.setMutex mutex { k.mutexes mutex with lockProcess := t })
  else some (.returned,k)

def unlockProcess : Option (Bool × Kernel) :=
  let m := k.mutexes mutex
  match m.list.pop with
  | none => some (false,k)
  | some (w,l) =>
    ((k.setMutex mutex { m with lockProcess := w, list := l }).changeThreadState w .ready).map
      (fun k => (true,k))

def mutexUp : Option Kernel :=
  if k.isValidMutex mutex ∧ (k.mutexes mutex).lockProcess = t then
    (k.unlockProcess mutex).map (fun (unlock,k) =>
      if unlock then k else k.setMutex mutex { k.mutexes mutex with value := unlocked })
  else some k

def getNextMutexAvailable : ℤ :=
  ((SlotTable.firstFree (fun m : Mutex => m.creator.pid ≠ notUsed) maxMutexes.toNat
    (fun i => k.mutexes i)).map Int.ofNat).getD fullList

/-- `name` is the argument up to its NUL, so that its length is `strlen`. -/
def createMutex (pid : ℤ) (name : List UInt8) (thread : ℤ) : Option ℤ × Kernel :=
  if k.usedMutexes < maxMutexes ∧ name.length < maxName then
    let mutex := k.firstAvailableMutex
    let m := k.mutexes mutex
    let k := k.setMutex mutex { m with
      name := fun i => name.getD i (m.name i), creator := ⟨pid,thread⟩ }
    (some mutex,{ k with usedMutexes := k.usedMutexes+1
                         firstAvailableMutex := k.getNextMutexAvailable })
  else (none,k)

def clearMutex : Kernel :=
  if mutex < maxMutexes then
    let k := k.setMutex mutex (Mutex.clear (k.mutexes mutex))
    if mutex < k.firstAvailableMutex then { k with firstAvailableMutex := mutex }
    else { k with firstAvailableMutex := k.getNextMutexAvailable }
  else k

def setupMutexSystem : Kernel :=
  let k := (List.range maxMutexes.toNat).foldl (fun k (i : ℕ) => k.clearMutex i) k
  let m := k.mutexes adminMutex
  k.setMutex adminMutex { m with creator := { m.creator with pid := 0 } }

def static : Kernel where
  processes := fun _ => none
  current := -1
  mutexes := fun _ => ⟨⟨0,0⟩,⟨0,0⟩,fun _ => 0,⟨fun _ => ⟨0,0⟩,0⟩,0⟩
  firstAvailableMutex := 1
  usedMutexes := 1
  semaphores := fun _ => ⟨⟨0,0⟩,fun _ => 0,⟨fun _ => ⟨0,0⟩,0⟩,0,0⟩

variable {k mutex t}

theorem ne_succ (i : ℤ) : i ≠ i+1 := by omega

@[simp] theorem testAndSetLock_mutexes_self :
    (k.testAndSetLock mutex).mutexes mutex = { k.mutexes mutex with value := locked } := by
  simp [testAndSetLock,setMutex_mutexes_of_ne _ (ne_succ mutex)]

@[simp] theorem testAndSetLock_processes :
    (k.testAndSetLock mutex).processes = k.processes := rfl

@[simp] theorem testAndSetLock_current : (k.testAndSetLock mutex).current = k.current := rfl

@[simp] theorem testAndSetLock_semaphores :
    (k.testAndSetLock mutex).semaphores = k.semaphores := rfl

/-- A lock that is free is taken at once. -/
theorem mutexDown_free (hv : k.isValidMutex mutex) (hf : (k.mutexes mutex).value ≠ locked) :
    ∃ k', k.mutexDown mutex t = some (.returned,k') ∧
      k'.mutexes mutex = { k.mutexes mutex with value := locked, lockProcess := t } ∧
      k'.processes = k.processes ∧ k'.current = k.current ∧ k'.semaphores = k.semaphores := by
  refine ⟨(k.testAndSetLock mutex).setMutex mutex
    { k.mutexes mutex with value := locked, lockProcess := t },?_,?_,rfl,rfl,rfl⟩
  · rw [mutexDown,if_pos hv,if_neg hf,testAndSetLock_mutexes_self]
  · simp

/-- Behind a taken lock the caller becomes a BLOCKED waiter. -/
theorem mutexDown_locked (hv : k.isValidMutex mutex) (hl : (k.mutexes mutex).value = locked)
    (ht : Processes.Real k.processes t) {l : BlockedList}
    (ha : (k.mutexes mutex).list.add t = some l) :
    ∃ k', k.mutexDown mutex t = some (.queued,k') ∧
      k'.mutexes mutex = { k.mutexes mutex with value := locked, list := l } ∧
      k'.processes = Processes.setThreadState k.processes t .blocked ∧
      k'.current = k.current ∧ k'.semaphores = k.semaphores := by
  let k₁ := (k.testAndSetLock mutex).setMutex mutex
    { k.mutexes mutex with value := locked, list := l }
  have hadd : (k.testAndSetLock mutex).addToBlocked mutex t = some k₁ := by
    simp [k₁,addToBlocked,ha]
  have hreal : Processes.Real k₁.processes t := ht
  refine ⟨{ k₁ with processes := Processes.setThreadState k.processes t .blocked },
    ?_,?_,rfl,rfl,rfl⟩
  · rw [mutexDown,if_pos hv,if_pos hl,hadd]
    simp only [changeThreadState_real hreal,Option.map_some]
    rfl
  · simp [k₁]

theorem unlockProcess_empty (h : (k.mutexes mutex).list.pop = none) :
    k.unlockProcess mutex = some (false,k) := by
  rw [unlockProcess,h]

theorem unlockProcess_pop {w : ThreadId} {l : BlockedList} (hw : Processes.Real k.processes w)
    (h : (k.mutexes mutex).list.pop = some (w,l)) :
    ∃ k', k.unlockProcess mutex = some (true,k') ∧
      k'.mutexes mutex = { k.mutexes mutex with lockProcess := w, list := l } ∧
      k'.processes = Processes.setThreadState k.processes w .ready ∧
      k'.current = k.current ∧ k'.semaphores = k.semaphores := by
  let k₁ := k.setMutex mutex { k.mutexes mutex with lockProcess := w, list := l }
  have hreal : Processes.Real k₁.processes w := hw
  refine ⟨{ k₁ with processes := Processes.setThreadState k.processes w .ready },
    ?_,by simp [k₁],rfl,rfl,rfl⟩
  rw [unlockProcess,h]
  simp only
  rw [changeThreadState_real hreal]
  rfl

/-- Only the recorded holder of a valid mutex gets past the test. -/
theorem mutexUp_ignored (h : ¬ (k.isValidMutex mutex ∧ (k.mutexes mutex).lockProcess = t)) :
    k.mutexUp mutex t = some k := if_neg h

theorem mutexUp_last (hv : k.isValidMutex mutex) (ht : (k.mutexes mutex).lockProcess = t)
    (h : (k.mutexes mutex).list.pop = none) :
    k.mutexUp mutex t = some (k.setMutex mutex { k.mutexes mutex with value := unlocked }) := by
  rw [mutexUp,if_pos ⟨hv,ht⟩,unlockProcess_empty h]
  rfl

theorem mutexUp_handOff (hv : k.isValidMutex mutex) (ht : (k.mutexes mutex).lockProcess = t)
    {w : ThreadId} {l : BlockedList} (hw : Processes.Real k.processes w)
    (h : (k.mutexes mutex).list.pop = some (w,l)) :
    ∃ k', k.mutexUp mutex t = some k' ∧
      k'.mutexes mutex = { k.mutexes mutex with lockProcess := w, list := l } ∧
      k'.processes = Processes.setThreadState k.processes w .ready ∧
      k'.current = k.current ∧ k'.semaphores = k.semaphores := by
  obtain ⟨k',he,hk'⟩ := unlockProcess_pop hw h
  refine ⟨k',?_,hk'⟩
  rw [mutexUp,if_pos ⟨hv,ht⟩,he]
  rfl

end Kernel
end ComplexOS
