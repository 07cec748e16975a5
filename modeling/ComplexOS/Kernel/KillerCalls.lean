import ComplexOS.Kernel.KillCalls
import ComplexOS.Kernel.RegistryCalls
import ComplexOS.Kernel.SelfDeadlock
import ComplexOS.Kernel.SemaphoreRelease
import ComplexOS.Kernel.FullLists

/-! # A killer that goes on

A kill calls `mutexDown` in the name of the victim. Where that has to wait, the victim is put on
the list, while the `yield` gives up the processor of the killer only: another thread than the
victim comes back from it and goes on without the mutex. The calls of a kill once more, with
`mutexDown` as an argument.
-/
namespace ComplexOS
open Kernel Call

namespace Registry

/-- `mutexDown` in the name of `t` by the running thread. On a full list it calls `killThread`,
which comes to the same list again. -/
def mutexDownFor (mutex : ℤ) (t : ThreadId) : KernelCall Unit := fun s =>
  match s.kernel.mutexDown mutex t with
  | some (.returned,k) => .ok ((),{ s with kernel := k })
  | some (.queued,k) =>
    if s.kernel.caller = t then .error (.waits mutex t (s.kernel.mutexes mutex).lockProcess)
    else .ok ((),{ s with kernel := k })
  | _ => .error .fails

namespace Kills
variable (down : ℤ → ThreadId → KernelCall Unit) (v : Victim) (t : ThreadId)

def releaseMutex (pid mutex thread : ℤ) : KernelCall Bool := do
  down adminMutex ⟨pid,thread⟩
  let released ← releaseMutexBody mutex ⟨pid,thread⟩
  mutexUp adminMutex ⟨pid,thread⟩
  pure released

def releaseSemaphoreBody (semaphore : ℤ) : KernelCall Bool := do
  let s ← get
  if s.kernel.isValidSemaphore semaphore ∧ (s.kernel.semaphores semaphore).creator = t then
    let _ ← releaseMutex down t.pid (s.kernel.semaphores semaphore).mutex t.thread
    modify (fun s => { s with kernel := s.kernel.disownSemaphore semaphore })
    piece (unlockAllSemaphore semaphore maxBlocked)
    pure true
  else pure false

def releaseSemaphore (pid semaphore thread : ℤ) : KernelCall Bool := do
  let s ← get
  down s.semaphoreMutex ⟨pid,thread⟩
  let released ← releaseSemaphoreBody down ⟨pid,thread⟩ semaphore
  mutexUp s.semaphoreMutex ⟨pid,thread⟩
  pure released

def releaseOwnedMutex (i : ℤ) : KernelCall Unit := do
  let s ← get
  if v.Covers (s.kernel.mutexes i).creator then
    let _ ← releaseMutex down t.pid i t.thread

def sweepMutex (i : ℕ) : KernelCall Unit := do
  releaseOwnedMutex down v t i
  upHeldMutex v i
  (List.range maxBlocked).forM (removeBlockedFromMutex v i)

def removeFromMutexes : KernelCall Unit := do
  down adminMutex t
  (List.range maxMutexes.toNat).forM (sweepMutex down v t)
  mutexUp adminMutex t

def releaseOwnedSemaphore (i : ℤ) : KernelCall Unit := do
  let s ← get
  if v.Covers (s.kernel.semaphores i).creator then
    let _ ← releaseSemaphore down t.pid i t.thread

def sweepSemaphore (i : ℕ) : KernelCall Unit := do
  releaseOwnedSemaphore down v t i
  (List.range maxBlocked).forM (removeBlockedFromSemaphore v i)

def removeFromSemaphores : KernelCall Unit := do
  let s ← get
  down s.semaphoreMutex t
  (List.range maxSemaphores.toNat).forM (sweepSemaphore down v t)
  mutexUp s.semaphoreMutex t

def cleanUp (pid : ℤ) (h : pid ≠ notUsed) : KernelCall Unit := do
  let s ← get
  removeFromMutexes down ⟨pid,none,h⟩ ⟨pid,s.currentThread pid⟩
  let s ← get
  removeFromSemaphores down ⟨pid,none,h⟩ ⟨pid,s.currentThread pid⟩
  removeProcess pid

def killProcess (pid : ℤ) (h : pid ≠ notUsed) : KernelCall Unit := do
  let s ← get
  match s.kernel.processes pid with
  | none => pure ()
  | some process =>
    modify (fun s => { s with kernel := s.kernel.changeChildrenToOrphan pid process.ppid })
    leaveForeground pid
    cleanUp down pid h

/-- With a `mutexDown` that keeps its caller these are the calls from before. -/
theorem killProcess_mutexDown {pid : ℤ} {h : pid ≠ notUsed} :
    killProcess Registry.mutexDown pid h = Registry.killProcess pid h := rfl

end Kills

def killProcessFor (pid : ℤ) (h : pid ≠ notUsed) : KernelCall Unit :=
  Kills.killProcess mutexDownFor pid h

end Registry

namespace BlockedList
variable {l l' : BlockedList} {t : ThreadId} {v : Victim} {n : ℕ}

def without (v : Victim) (n : ℕ) (blocked : ℕ → ThreadId) : ℕ → ThreadId :=
  fun j => if j < n ∧ v.Covers (blocked j) then ThreadId.unused else blocked j

theorem without_zero {blocked : ℕ → ThreadId} : without v 0 blocked = blocked := by
  funext j
  exact if_neg (fun h => absurd h.1 (Nat.not_lt_zero j))

theorem without_of_not {blocked : ℕ → ThreadId} (h : ¬ v.Covers (blocked n)) :
    without v (n+1) blocked = without v n blocked := by
  funext j
  refine if_congr ⟨fun hx => ⟨?_,hx.2⟩,fun hx => ⟨Nat.lt_succ_of_lt hx.1,hx.2⟩⟩ rfl rfl
  rcases Nat.lt_succ_iff_lt_or_eq.mp hx.1 with hlt | rfl
  · exact hlt
  · exact absurd hx.2 h

theorem without_of_covers {blocked : ℕ → ThreadId} (h : v.Covers (blocked n)) :
    without v (n+1) blocked = Function.update (without v n blocked) n ThreadId.unused := by
  funext j
  by_cases hj : j = n
  · subst hj
    rw [Function.update_self]
    exact if_pos ⟨Nat.lt_succ_self j,h⟩
  · rw [Function.update_of_ne hj]
    exact if_congr ⟨fun hx => ⟨by omega,hx.2⟩,fun hx => ⟨Nat.lt_succ_of_lt hx.1,hx.2⟩⟩ rfl rfl

theorem without_self {blocked : ℕ → ThreadId} : without v n blocked n = blocked n :=
  if_neg (fun h => absurd h.1 (lt_irrefl n))

theorem waiters_without (h : l'.blocked = without v maxBlocked l.blocked) :
    l'.waiters = l.waiters.filter (fun w => ¬ v.Covers w) := by
  unfold waiters
  rw [h]
  exact SlotTable.entries_filter not_used_unused

theorem waiters_add_split (ht : t.used) (h : l.add t = some l') :
    ∃ as bs, l.waiters = as++bs ∧ l'.waiters = as++t::bs := by
  obtain ⟨i,hi,rfl⟩ := Option.map_eq_some_iff.mp h
  obtain ⟨hlt,hfree⟩ := SlotTable.firstFree_some hi
  exact SlotTable.entries_update hlt hfree ht

end BlockedList

namespace Kernel
variable {k k' k'' : Kernel} {m i pid : ℤ} {t w : ThreadId} {o : DownOutcome} {b : Bool} {n j : ℕ}
  {v : Victim} {st : ProcessState} {x : Mutex}

def SameRecords (k k' : Kernel) : Prop := ∀ pid,
  (k'.processes pid).map (fun p => (p.currentThread,p.address)) =
    (k.processes pid).map (fun p => (p.currentThread,p.address))

theorem SameRecords.refl : SameRecords k k := fun _ => rfl

theorem SameRecords.trans (h : SameRecords k k') (h' : SameRecords k' k'') : SameRecords k k'' :=
  fun pid => (h' pid).trans (h pid)

theorem SameRecords.currentThread (h : SameRecords k k') : Processes.getCurrentThread k'.processes pid =
    Processes.getCurrentThread k.processes pid := by
  have hmap := congrArg (Option.map Prod.fst) (h pid)
  rw [Option.map_map,Option.map_map] at hmap
  exact congrArg (fun o => o.getD (-1)) hmap

theorem SameRecords.address (h : SameRecords k k') {p : Process} (hp : k.processes pid = some p) :
    ∃ p', k'.processes pid = some p' ∧ p'.address = p.address := by
  have hmap := h pid
  rw [hp,Option.map_some] at hmap
  obtain ⟨p',hp',he⟩ := Option.map_eq_some_iff.mp hmap
  exact ⟨p',hp',congrArg Prod.snd he⟩

theorem changeThreadState_sameRecords (h : k.changeThreadState t st = some k') : SameRecords k k' := by
  obtain ⟨ps,hps,rfl⟩ := Option.map_eq_some_iff.mp h
  rcases Processes.changeThreadState_cases hps with rfl | rfl
  · intro pid
    show (Processes.setThreadState k.processes t st pid).map _ = _
    unfold Processes.setThreadState
    by_cases hp : pid = t.pid
    · subst hp
      rw [Function.update_self,Option.map_map]
      rfl
    · rw [Function.update_of_ne hp]
  · exact SameRecords.refl

theorem changeChildrenToOrphan_sameRecords {ppid : ℤ} :
    SameRecords k (k.changeChildrenToOrphan pid ppid) := by
  intro p
  show (Option.map _ (k.processes p)).map _ = _
  rw [Option.map_map]
  congr 1
  funext x
  simp only [Function.comp_apply]
  split <;> rfl

theorem mutexDown_sameRecords (h : k.mutexDown m t = some (o,k')) : SameRecords k k' := by
  rw [mutexDown] at h
  split at h
  · simp only at h
    split at h
    · split at h
      · rename_i k₁ hadd
        obtain ⟨k₂,hk,he⟩ := Option.map_eq_some_iff.mp h
        cases he
        obtain ⟨l,-,rfl⟩ := Option.map_eq_some_iff.mp hadd
        exact fun pid => changeThreadState_sameRecords hk pid
      · cases h
        exact SameRecords.refl
    · cases h
      exact SameRecords.refl
  · cases h
    exact SameRecords.refl

theorem unlockProcess_sameRecords (h : k.unlockProcess m = some (b,k')) : SameRecords k k' := by
  simp only [unlockProcess] at h
  split at h
  · cases h
    exact SameRecords.refl
  · obtain ⟨k₁,hk,he⟩ := Option.map_eq_some_iff.mp h
    cases he
    exact fun pid => changeThreadState_sameRecords hk pid

theorem mutexUp_sameRecords (h : k.mutexUp m t = some k') : SameRecords k k' := by
  rw [mutexUp] at h
  split at h
  · obtain ⟨⟨b,k₁⟩,hk,rfl⟩ := Option.map_eq_some_iff.mp h
    have hsame := unlockProcess_sameRecords hk
    cases b <;> exact hsame
  · cases h
    exact SameRecords.refl

theorem unlockAll_sameRecords (h : unlockAll m n k = some k') : SameRecords k k' := by
  induction n generalizing k with
  | zero =>
    unfold unlockAll at h
    split at h
    · cases h
    · cases h
      exact SameRecords.refl
  | succ n ih =>
    unfold unlockAll at h
    split at h
    · obtain ⟨⟨b,k₁⟩,hk,h⟩ := Option.bind_eq_some_iff.mp h
      exact (unlockProcess_sameRecords hk).trans (ih h)
    · cases h
      exact SameRecords.refl

theorem releaseMutexBody_sameRecords (h : k.releaseMutexBody m t = some (b,k')) :
    SameRecords k k' := by
  unfold releaseMutexBody at h
  split at h
  · obtain ⟨k₁,hk,he⟩ := Option.map_eq_some_iff.mp h
    cases he
    exact unlockAll_sameRecords (k := k.disownMutex m) hk
  · cases h
    exact SameRecords.refl

theorem removeBlockedFromMutex_sameRecords (h : k.removeBlockedFromMutex v m j = some k') :
    SameRecords k k' := by
  simp only [removeBlockedFromMutex] at h
  split at h
  · exact fun pid => changeThreadState_sameRecords h pid
  · cases h
    exact SameRecords.refl

/-- The last that is woken is the holder on record. -/
theorem unlockAll_last (hc : (k.mutexes m).list.Counted) (h : unlockAll m n k = some k') :
    (k'.mutexes m).list.waiters = [] ∧ (k'.mutexes m).lockProcess =
      (k.mutexes m).list.waiters.getLast?.getD (k.mutexes m).lockProcess := by
  have hdone : ¬ (k.mutexes m).list.blockedQuantity > 0 → k' = k →
      (k'.mutexes m).list.waiters = [] ∧ (k'.mutexes m).lockProcess =
        (k.mutexes m).list.waiters.getLast?.getD (k.mutexes m).lockProcess := by
    rintro hq rfl
    have hnonneg := hc.nonneg
    have hnil := hc.waiters_nil.mpr (by omega)
    rw [hnil]
    exact ⟨rfl,rfl⟩
  induction n generalizing k with
  | zero =>
    unfold unlockAll at h
    split at h
    · cases h
    · rename_i hq
      exact hdone hq (Option.some.inj h).symm
  | succ n ih =>
    unfold unlockAll at h
    split at h
    · rename_i hq
      obtain ⟨⟨b,k₁⟩,hk,h⟩ := Option.bind_eq_some_iff.mp h
      obtain ⟨w,l,hp⟩ := hc.pop_some hq
      obtain ⟨-,hnone,-⟩ | ⟨-,-,w',l',hp',hm⟩ := unlockProcess_cases hk
      · rw [hp] at hnone
        cases hnone
      · obtain ⟨rfl,rfl⟩ := Prod.mk.inj (Option.some.inj (hp.symm.trans hp'))
        have hself : k₁.mutexes m = { k.mutexes m with lockProcess := w, list := l } := by
          rw [hm,Function.update_self]
        have hcount : (k₁.mutexes m).list.Counted := by
          rw [hself]
          exact hc.pop hp
        have hrest := ih hcount h (fun hq' he => by
          have hnonneg := hcount.nonneg
          have hnil := hcount.waiters_nil.mpr (by omega)
          rw [he,hnil]
          exact ⟨rfl,rfl⟩)
        rw [hself] at hrest
        rw [BlockedList.waiters_pop hp,List.getLast?_cons,Option.getD_some]
        exact hrest
    · rename_i hq
      exact hdone hq (Option.some.inj h).symm

theorem releaseMutexBody_last (hc : (k.mutexes m).list.Counted) (hv : k.isValidMutex m)
    (ht : (k.mutexes m).creator = t) (h : k.releaseMutexBody m t = some (b,k')) :
    (k'.mutexes m).list.waiters = [] ∧ (k'.mutexes m).lockProcess =
      (k.mutexes m).list.waiters.getLast?.getD { (k.mutexes m).lockProcess with pid := notUsed } := by
  have hself : (k.disownMutex m).mutexes m = { k.mutexes m with
      creator := { (k.mutexes m).creator with pid := notUsed }
      lockProcess := { (k.mutexes m).lockProcess with pid := notUsed } } :=
    setMutex_mutexes_self k m _
  unfold releaseMutexBody at h
  rw [if_pos ⟨hv,ht⟩] at h
  obtain ⟨k₁,hk,he⟩ := Option.map_eq_some_iff.mp h
  cases he
  have hlast := unlockAll_last (by rw [hself]; exact hc) hk
  rw [hself] at hlast
  exact hlast

/-- At the slots of the kernel the mark of the exchange changes nothing. -/
theorem Guarded.marked_eq (h : k.Guarded) (h0 : 0 ≤ m) (h1 : m ≤ 1) :
    Kernel.marked k m x = Function.update k.mutexes m x := by
  have hnext : ({ k.mutexes (m+1) with
      creator := { (k.mutexes (m+1)).creator with pid := 0 } } : Mutex) = k.mutexes (m+1) := by
    have hc := h.creator (m+1) (by omega) (by omega)
    cases hx : k.mutexes (m+1)
    rw [hx] at hc
    simp only at hc
    rw [hc]
  show Function.update (Function.update k.mutexes (m+1) _) m x = _
  rw [hnext,Function.update_eq_self]

end Kernel

end ComplexOS
