import ComplexOS.Kernel.Waits

/-! # Killing threads and processes

The pieces of `killThread` and `killProcess` that run between two calls of a
primitive. `removePidFromMutexes` and `removeThreadFromMutexes`, and their semaphore
counterparts, differ in whom they look for only, which is the `Victim`.
-/
namespace ComplexOS

structure Victim where
  pid : ℤ
  thread : Option ℤ
  used : pid ≠ notUsed

def Victim.Covers (v : Victim) (t : ThreadId) : Prop := t.pid = v.pid ∧ ∀ i ∈ v.thread, t.thread = i

instance (v : Victim) : DecidablePred v.Covers :=
  fun t => inferInstanceAs (Decidable (t.pid = v.pid ∧ ∀ i ∈ v.thread, t.thread = i))

def BlockedList.remove (l : BlockedList) (j : ℕ) : BlockedList :=
  ⟨Function.update l.blocked j ThreadId.unused,l.blockedQuantity-1⟩

/-- The thread's slot is emptied and those that joined it go on: the end of
`terminateThread`, with `unlockWaitingThreads`. -/
def Process.terminateThread (p : Process) (thread : ℤ) : Process :=
  { p with threads := fun i => if i = thread then none else (p.threads i).map (fun th =>
      if th.state = .sleeping ∧ th.waitingThread = thread then
        { th with state := .ready, waitingThread := notWaiting }
      else th) }

namespace Kernel
variable (k : Kernel) (v : Victim) (t : ThreadId)

/-- One entry of the sweep over `mutexes[i].blocked`. -/
def removeBlockedFromMutex (i : ℤ) (j : ℕ) : Option Kernel :=
  let m := k.mutexes i
  if v.Covers (m.list.blocked j) then
    (k.setMutex i { m with list := m.list.remove j }).changeThreadState (m.list.blocked j) .ready
  else some k

/-- One entry of the sweep over `semaphores[i].blocked`, which gives back the count. -/
def removeBlockedFromSemaphore (i : ℤ) (j : ℕ) : Option Kernel :=
  let s := k.semaphores i
  if v.Covers (s.list.blocked j) then
    (increment s.value).bind (fun value =>
      (k.setSemaphore i { s with
        list := s.list.remove j
        value := value }).changeThreadState (s.list.blocked j) .ready)
  else some k

/-- `releaseMutex` gives up a mutex before it wakes the waiters. -/
def disownMutex (i : ℤ) : Kernel :=
  let m := k.mutexes i
  k.setMutex i { m with
    creator := { m.creator with pid := notUsed }
    lockProcess := { m.lockProcess with pid := notUsed } }

def disownSemaphore (i : ℤ) : Kernel :=
  let s := k.semaphores i
  k.setSemaphore i { s with creator := { s.creator with pid := notUsed } }

/-- `ppid` is the new parent of the children of `pid`. -/
def changeChildrenToOrphan (pid ppid : ℤ) : Kernel :=
  { k with processes := fun i =>
      (k.processes i).map (fun p => if p.ppid = pid then { p with ppid := ppid } else p) }

def terminateThread (p : Process) : Kernel :=
  { k with processes := Function.update k.processes t.pid (some (p.terminateThread t.thread)) }

def removeProcess (pid : ℤ) : Kernel :=
  { k with processes := Function.update k.processes pid none }

variable {k v t} {k' : Kernel} {why : ThreadId → Option Queue} {kills : ThreadId → Prop}
  {waiting : Queue → Finset ThreadId} {i pid ppid : ℤ} {j : ℕ} {p : Process} {u : ThreadId}

theorem removeBlockedFromMutex_effect (h : k.Waits why waiting) (hr : Queue.InRange (.mutex i))
    (hj : j < maxBlocked) (hx : k.removeBlockedFromMutex v i j = some k') :
    Effect v.Covers why why k k' := by
  simp only [removeBlockedFromMutex] at hx
  split at hx
  · rename_i hc
    have hholds := h.lists _ hr
    have hused : ((k.mutexes i).list.blocked j).used := fun he => v.used (hc.1.symm.trans he)
    obtain ⟨hm,hs,-,hother,hself⟩ := changeThreadState_spec (k := k.setMutex i _) h.named hx
    refine Effect.dequeue h (q := .mutex i) (hholds.entry j hj hused) ?_ (fun q hq => ?_) hother hself
      (Or.inr hc)
    · rw [list_of_tables hm hs,list_setMutex_self]
      exact hholds.erase hj hused BlockedList.not_used_unused
    · rw [list_of_tables hm hs,list_setMutex_of_ne hq]
  · cases hx
    exact Effect.same h (fun _ _ => rfl) rfl

theorem removeBlockedFromSemaphore_effect (h : k.Waits why waiting)
    (hr : Queue.InRange (.semaphore i)) (hj : j < maxBlocked)
    (hx : k.removeBlockedFromSemaphore v i j = some k') : Effect kills why why k k' := by
  simp only [removeBlockedFromSemaphore] at hx
  split at hx
  · rename_i hc
    obtain ⟨value,-,hx⟩ := Option.bind_eq_some_iff.mp hx
    have hholds := h.lists _ hr
    have hused : ((k.semaphores i).list.blocked j).used := fun he => v.used (hc.1.symm.trans he)
    obtain ⟨hm,hs,-,hother,hself⟩ := changeThreadState_spec (k := k.setSemaphore i _) h.named hx
    have hmem := hholds.entry j hj hused
    have hlist : (k'.list (.semaphore i)).Holds
        ((waiting (.semaphore i)).erase ((k.semaphores i).list.blocked j)) := by
      rw [list_of_tables hm hs,list_setSemaphore_self]
      exact hholds.erase hj hused BlockedList.not_used_unused
    refine Effect.dequeue h hmem hlist (fun q hq => ?_) hother hself
      (justified_semaphore hholds hmem hlist)
    rw [list_of_tables hm hs,list_setSemaphore_of_ne hq]
  · cases hx
    exact Effect.same h (fun _ _ => rfl) rfl

theorem threadState_changeChildrenToOrphan :
    (k.changeChildrenToOrphan pid ppid).threadState u = k.threadState u := by
  simp only [threadState,Processes.threadState,Processes.thread?,changeChildrenToOrphan]
  cases k.processes u.pid with
  | none => rfl
  | some p =>
    simp only [Option.map_some,Option.bind_some]
    split <;> rfl

theorem threadState_removeProcess :
    (k.removeProcess pid).threadState u = if u.pid = pid then none else k.threadState u := by
  by_cases h : u.pid = pid
  · simp [threadState,Processes.threadState,Processes.thread?,removeProcess,h]
  · simp [threadState,Processes.threadState,Processes.thread?,removeProcess,h]

theorem removeProcess_effect (h : k.Waits why waiting) :
    Effect kills why why k (k.removeProcess pid) := by
  refine Effect.frame h (fun q _ => list_of_tables rfl rfl) (fun u => Or.inl ⟨rfl,?_⟩)
  rw [threadState_removeProcess]
  split
  · exact Or.inr rfl
  · exact Or.inl rfl

/-- The thread goes, and of the others only sleepers become READY. -/
theorem threadState_terminateThread (hp : k.processes t.pid = some p) (u : ThreadId) :
    (k.terminateThread t p).threadState u = k.threadState u ∨
      (k.terminateThread t p).threadState u = none ∨
      (k.threadState u = some .sleeping ∧ (k.terminateThread t p).threadState u = some .ready) := by
  by_cases hu : u.pid = t.pid
  · have hnew : (k.terminateThread t p).threadState u =
        ((p.terminateThread t.thread).threads u.thread).map Thread.state := by
      simp [threadState,Processes.threadState,Processes.thread?,terminateThread,hu]
    have hold : k.threadState u = (p.threads u.thread).map Thread.state := by
      simp [threadState,Processes.threadState,Processes.thread?,hu,hp]
    rw [hnew,hold,Process.terminateThread]
    simp only
    split
    · exact Or.inr (Or.inl rfl)
    · cases p.threads u.thread with
      | none => exact Or.inl rfl
      | some th =>
        simp only [Option.map_some]
        split
        · rename_i hs
          exact Or.inr (Or.inr ⟨by rw [hs.1],rfl⟩)
        · exact Or.inl rfl
  · refine Or.inl ?_
    simp [threadState,Processes.threadState,Processes.thread?,terminateThread,hu]

theorem terminateThread_effect (h : k.Waits why waiting) (hp : k.processes t.pid = some p) :
    Effect kills why why k (k.terminateThread t p) := by
  refine Effect.frame h (fun q _ => list_of_tables rfl rfl) (fun u => ?_)
  rcases threadState_terminateThread hp u with hu | hu | ⟨hu,hr⟩
  · exact Or.inl ⟨rfl,Or.inl hu⟩
  · exact Or.inl ⟨rfl,Or.inr hu⟩
  · refine Or.inr ⟨fun q => h.awake hu (by decide),by rw [hu]; rfl,fun hb => ?_⟩
    rw [hr] at hb
    cases hb

theorem disownMutex_effect (h : k.Waits why waiting) : Effect kills why why k (k.disownMutex i) :=
  Effect.same h (fun _ _ => list_setMutex (by rfl)) rfl

theorem disownSemaphore_effect (h : k.Waits why waiting) :
    Effect kills why why k (k.disownSemaphore i) :=
  Effect.same h (fun _ _ => list_setSemaphore (by rfl)) rfl

end Kernel
end ComplexOS
