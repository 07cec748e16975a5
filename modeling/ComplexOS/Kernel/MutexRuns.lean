import ComplexOS.Kernel.Mutex
import ComplexOS.Library.Runs

/-! # Runs over one mutex

Threads call `mutexDown` and `mutexUp` on one mutex in any order, switched by an
arbitrary scheduler. Ownership is a ghost: it begins when a call takes the free lock
or when a `mutexUp` turns a waiter READY, and ends with the owner's own `mutexUp`.
-/
namespace ComplexOS

structure MutexRun where
  kernel : Kernel
  /-- Threads whose `mutexDown` has yielded and has not returned. -/
  suspended : Finset ThreadId
  waiting : Finset ThreadId
  holders : Finset ThreadId
  /-- Threads back from `mutexDown` that have not called `mutexUp` since. -/
  returned : Finset ThreadId

inductive MutexStep
  | mutexDown
  | mutexUp
  | resume
  | dispatch (t : ThreadId)
  deriving DecidableEq, Repr

def woken (k k' : Kernel) (waiting : Finset ThreadId) : Finset ThreadId :=
  waiting.filter (fun w => k.threadState w = some .blocked ∧ k'.threadState w = some .ready)

namespace MutexRun
variable (mutex : ℤ) (s : MutexRun)

def start (k : Kernel) : MutexRun := ⟨k,∅,∅,∅,∅⟩

def caller : ThreadId := s.kernel.caller

def Calls : Prop :=
  Processes.Real s.kernel.processes s.caller ∧ s.caller ∉ s.suspended

instance : Decidable s.Calls :=
  inferInstanceAs (Decidable (Processes.Real _ _ ∧ _ ∉ _))

/-- The caller gives up what it held, and the waiters that were woken now hold it. -/
def afterUp (k : Kernel) : MutexRun :=
  let handed := woken s.kernel k s.waiting
  { s with
    kernel := k
    waiting := s.waiting \ handed
    holders := s.holders.erase s.caller ∪ handed
    returned := s.returned.erase s.caller }

def step : MutexStep → Option MutexRun
  | .mutexDown =>
    if s.Calls ∧ s.waiting.card < maxBlocked then
      match s.kernel.mutexDown mutex s.caller with
      | some (.returned,k) => some { s with
          kernel := k
          holders := insert s.caller s.holders
          returned := insert s.caller s.returned }
      | some (.queued,k) => some { s with
          kernel := k
          suspended := insert s.caller s.suspended
          waiting := insert s.caller s.waiting }
      | _ => none
    else none
  | .mutexUp =>
    if s.Calls then
      (s.kernel.mutexUp mutex s.caller).map s.afterUp
    else none
  | .resume =>
    if s.caller ∈ s.suspended ∧ s.kernel.threadState s.caller = some .running then
      some { s with suspended := s.suspended.erase s.caller
                    returned := insert s.caller s.returned }
    else none
  | .dispatch t =>
    if s.kernel.threadState t = some .ready then some { s with kernel := s.kernel.dispatch t }
    else none

structure StartsUnlocked (k : Kernel) : Prop where
  valid : k.isValidMutex mutex
  value : (k.mutexes mutex).value = unlocked
  list : (k.mutexes mutex).list.Holds ∅

/-- Either nobody holds the mutex and nobody waits, whatever the stale `lockProcess`
says, or `lockProcess` is the one holder. -/
def Owned (m : Mutex) (holders waiting : Finset ThreadId) : Prop :=
  m.value = unlocked ∧ holders = ∅ ∧ waiting = ∅ ∨ m.value = locked ∧ holders = {m.lockProcess}

structure Ok : Prop where
  valid : s.kernel.isValidMutex mutex
  list : (s.kernel.mutexes mutex).list.Holds s.waiting
  owned : Owned (s.kernel.mutexes mutex) s.holders s.waiting
  real : ∀ w ∈ s.waiting, Processes.Real s.kernel.processes w
  blocked : ∀ w ∈ s.waiting, s.kernel.threadState w = some .blocked
  suspended : s.waiting ⊆ s.suspended
  handed : ∀ t ∈ s.suspended, t ∉ s.waiting → t ∈ s.holders
  returned : s.returned ⊆ s.holders

variable {mutex s}

/-- A mutex made in a slot that nobody waits for and whose lock is open. -/
theorem createMutex_startsUnlocked {k k' : Kernel} {pid thread : ℤ} {name : List UInt8}
    (hp : pid ≠ notUsed) (hlo : 0 ≤ mutex) (hhi : mutex < maxMutexes)
    (hval : (k.mutexes mutex).value = unlocked) (hlist : (k.mutexes mutex).list.Holds ∅)
    (h : k.createMutex pid name thread = (some mutex,k')) : StartsUnlocked mutex k' := by
  rw [Kernel.createMutex] at h
  split at h
  · obtain ⟨hm,rfl⟩ := Prod.mk.inj h
    cases hm
    exact ⟨⟨hlo,hhi,by simpa using hp⟩,by simpa using hval,by simpa using hlist⟩
  · cases h

theorem start_ok {k : Kernel} (h : StartsUnlocked mutex k) : Ok mutex (start k) :=
  ⟨h.valid,h.list,Or.inl ⟨h.value,rfl,rfl⟩,by simp [start],by simp [start],by simp [start],
    by simp [start],by simp [start]⟩

theorem isValidMutex_of_creator {k k' : Kernel}
    (h : (k'.mutexes mutex).creator = (k.mutexes mutex).creator) (hv : k.isValidMutex mutex) :
    k'.isValidMutex mutex := ⟨hv.1,hv.2.1,h ▸ hv.2.2⟩

theorem used_of_real {ps : ℤ → Option Process} {t : ThreadId} (h : Processes.Real ps t) :
    t.used := by
  have := h.pid
  simp only [ThreadId.used,notUsed]
  omega

theorem Calls.not_waiting (hc : s.Calls) (hs : Ok mutex s) : s.caller ∉ s.waiting :=
  fun hw => hc.2 (hs.suspended hw)

/-- The wake-up of one waiter is seen as exactly that waiter. -/
theorem woken_single {k k' : Kernel} {W : Finset ThreadId} {w : ThreadId} (hw : w ∈ W)
    (hb : ∀ v ∈ W, k.threadState v = some .blocked) (hx : (k.threadState w).isSome)
    (hk : k'.processes = Processes.setThreadState k.processes w .ready) : woken k k' W = {w} := by
  ext v
  simp only [woken,Finset.mem_filter,Finset.mem_singleton,Kernel.threadState,hk]
  constructor
  · rintro ⟨hv,-,hr⟩
    by_contra hne
    rw [Processes.threadState_set_of_ne hne] at hr
    have := hb v hv
    rw [Kernel.threadState,hr] at this
    cases this
  · rintro rfl
    have hv := hb v hw
    rw [Kernel.threadState] at hv
    simp [hw,hv]

theorem woken_same {k k' : Kernel} {W : Finset ThreadId} (hk : k'.processes = k.processes) :
    woken k k' W = ∅ := by
  refine Finset.filter_eq_empty_iff.mpr (fun w _ => ?_)
  rintro ⟨hb,hr⟩
  rw [Kernel.threadState,hk,← Kernel.threadState,hb] at hr
  cases hr

theorem afterUp_same {k : Kernel} (hk : k.processes = s.kernel.processes) :
    s.afterUp k = { s with
      kernel := k
      holders := s.holders.erase s.caller
      returned := s.returned.erase s.caller } := by
  simp only [afterUp,woken_same hk,Finset.sdiff_empty,Finset.union_empty]

theorem mutexDown_step (hs : Ok mutex s) (hc : s.Calls) (hlt : s.waiting.card < maxBlocked) :
    ∃ s', step mutex s .mutexDown = some s' ∧ Ok mutex s' ∧
      Kernel.Frame {s.caller} s.kernel s'.kernel ∧
      (s'.suspended = s.suspended ∨ s'.suspended = insert s.caller s.suspended) := by
  rw [step,if_pos ⟨hc,hlt⟩]
  rcases hs.owned with ⟨hval,hh,hw⟩ | ⟨hval,hh⟩
  · obtain ⟨k,hk,hm,hp,hcur,hsem⟩ := Kernel.mutexDown_free (t := s.caller) hs.valid
      (by rw [hval]; decide)
    rw [hk]
    refine ⟨_,rfl,?_,Kernel.Frame.of_eq hp hcur hsem,Or.inl rfl⟩
    refine ⟨isValidMutex_of_creator (by simp [hm]) hs.valid,by simpa [hm] using hs.list,
      Or.inr (by simp [hm,hh]),by simp [hw],by simp [hw],by simp [hw],?_,?_⟩
    · intro t ht hn
      exact Finset.mem_insert_of_mem (hs.handed t ht hn)
    · exact Finset.insert_subset_insert _ hs.returned
  · obtain ⟨l,hl,hlist⟩ := hs.list.add (hc.not_waiting hs) (used_of_real hc.1) hlt
    obtain ⟨k,hk,hm,hp,hcur,hsem⟩ := Kernel.mutexDown_locked hs.valid hval hc.1 hl
    rw [hk]
    refine ⟨_,rfl,?_,Kernel.Frame.of_set hp hcur hsem (Finset.mem_singleton_self _),Or.inr rfl⟩
    refine ⟨isValidMutex_of_creator (by simp [hm]) hs.valid,by simpa [hm] using hlist,
      Or.inr (by simp [hm,hh]),?_,?_,?_,?_,hs.returned⟩
    · intro w hw
      simp only [hp,Processes.real_set]
      rcases Finset.mem_insert.mp hw with rfl | hw
      · exact hc.1
      · exact hs.real w hw
    · intro w hw
      by_cases he : w = s.caller
      · rw [he]
        exact Kernel.threadState_of_set hp hc.1.isSome
      · rw [Kernel.threadState_of_set_ne hp he]
        exact hs.blocked w (Finset.mem_of_mem_insert_of_ne hw he)
    · exact Finset.insert_subset_insert _ hs.suspended
    · intro t ht hn
      rw [Finset.mem_insert,not_or] at hn
      exact hs.handed t (Finset.mem_of_mem_insert_of_ne ht hn.1) hn.2

/-- What a `mutexUp` by the holder with waiters present does: one waiter, and no other
thread, becomes READY, and it is the holder. -/
structure HandOff (mutex : ℤ) (s s' : MutexRun) (w : ThreadId) : Prop where
  waiter : w ∈ s.waiting
  ready : s'.kernel.threadState w = some .ready
  others : ∀ v, v ≠ w → s'.kernel.threadState v = s.kernel.threadState v
  waiting : s'.waiting = s.waiting.erase w
  holder : s'.holders = {w}
  lockProcess : (s'.kernel.mutexes mutex).lockProcess = w

theorem mutexUp_handOff (hs : Ok mutex s) (hc : s.Calls)
    (hval : (s.kernel.mutexes mutex).value = locked)
    (hh : s.holders = {(s.kernel.mutexes mutex).lockProcess})
    (ht : (s.kernel.mutexes mutex).lockProcess = s.caller) (hne : s.waiting.Nonempty) :
    ∃ s' w, step mutex s .mutexUp = some s' ∧ Ok mutex s' ∧ HandOff mutex s s' w ∧
      Kernel.Frame s.waiting s.kernel s'.kernel ∧ s'.suspended = s.suspended := by
  obtain ⟨w,hw,l,hpop,hlist⟩ := hs.list.pop hne
  obtain ⟨k,hk,hm,hp,hcur,hsem⟩ := Kernel.mutexUp_handOff hs.valid ht (hs.real w hw) hpop
  have hx := hs.blocked w hw
  have hwk : woken s.kernel k s.waiting = {w} :=
    woken_single hw hs.blocked (by rw [hx]; rfl) hp
  have hst : ∀ v, v ≠ w → k.threadState v = s.kernel.threadState v :=
    fun v hv => Kernel.threadState_of_set_ne hp hv
  have hholders : s.holders.erase s.caller ∪ {w} = {w} := by
    rw [hh,ht]
    simp
  let s' : MutexRun := { s with
    kernel := k
    waiting := s.waiting.erase w
    holders := {w}
    returned := s.returned.erase s.caller }
  refine ⟨s',w,?_,?_,?_,Kernel.Frame.of_set hp hcur hsem hw,rfl⟩
  · rw [step,if_pos hc,hk]
    simp only [Option.map_some,afterUp,hwk,hholders,Finset.sdiff_singleton_eq_erase,s']
  · refine ⟨isValidMutex_of_creator (by simp [s',hm]) hs.valid,by simpa [s',hm] using hlist,
      Or.inr (by simp [s',hm,hval]),?_,?_,?_,?_,?_⟩
    · intro v hv
      simpa [s',hp] using hs.real v (Finset.mem_of_mem_erase hv)
    · intro v hv
      obtain ⟨hne,hv⟩ := Finset.mem_erase.mp hv
      exact (hst v hne).trans (hs.blocked v hv)
    · exact (Finset.erase_subset _ _).trans hs.suspended
    · -- a thread already handed the mutex could only be the caller, who is not suspended
      intro v hv hn
      by_cases hvw : v = w
      · simp [s',hvw]
      · have hvh := hs.handed v hv (fun h => hn (Finset.mem_erase.mpr ⟨hvw,h⟩))
        rw [hh,ht,Finset.mem_singleton] at hvh
        exact (hc.2 (hvh ▸ hv)).elim
    · intro v hv
      obtain ⟨hne,hv⟩ := Finset.mem_erase.mp hv
      have hvh := hs.returned hv
      rw [hh,ht,Finset.mem_singleton] at hvh
      exact (hne hvh).elim
  · exact ⟨hw,Kernel.threadState_of_set hp (by rw [hx]; rfl),hst,rfl,rfl,by simp [s',hm]⟩

theorem mutexUp_last (hs : Ok mutex s) (hc : s.Calls)
    (hh : s.holders ⊆ {s.caller})
    (ht : (s.kernel.mutexes mutex).lockProcess = s.caller) (he : s.waiting = ∅) :
    ∃ s', step mutex s .mutexUp = some s' ∧ Ok mutex s' ∧
      Kernel.Frame s.waiting s.kernel s'.kernel ∧ s'.suspended = s.suspended := by
  have hk := Kernel.mutexUp_last hs.valid ht (he ▸ hs.list).pop_empty
  have hholders : s.holders.erase s.caller = ∅ :=
    Finset.erase_eq_empty_iff _ _ |>.mpr (Finset.subset_singleton_iff.mp hh)
  rw [step,if_pos hc,hk]
  refine ⟨s.afterUp _,rfl,?_,Kernel.Frame.of_eq rfl rfl rfl,rfl⟩
  rw [afterUp_same (Kernel.setMutex_processes _ _ _)]
  simp only [hholders]
  refine ⟨isValidMutex_of_creator (by simp) hs.valid,by simpa [he] using hs.list,
    Or.inl (by simp [he]),by simp [he],by simp [he],by simp [he],?_,?_⟩
  · intro t htm _
    have hx := hh (hs.handed t htm (by simp [he]))
    rw [Finset.mem_singleton] at hx
    exact (hc.2 (hx ▸ htm)).elim
  · intro t htm
    obtain ⟨hne,htm⟩ := Finset.mem_erase.mp htm
    exact (hne (Finset.mem_singleton.mp (hh (hs.returned htm)))).elim

/-- The test on `lockProcess` filters the calls of threads that do not hold the mutex,
except a second call by the last holder, which finds nobody to wake. -/
theorem mutexUp_step (hs : Ok mutex s) (hc : s.Calls) :
    ∃ s', step mutex s .mutexUp = some s' ∧ Ok mutex s' ∧
      Kernel.Frame s.waiting s.kernel s'.kernel ∧ s'.suspended = s.suspended := by
  by_cases ht : (s.kernel.mutexes mutex).lockProcess = s.caller
  · rcases hs.owned with ⟨hval,hh,hw⟩ | ⟨hval,hh⟩
    · exact mutexUp_last hs hc (by simp [hh]) ht hw
    · rcases s.waiting.eq_empty_or_nonempty with he | hne
      · exact mutexUp_last hs hc (by rw [hh,ht]) ht he
      · obtain ⟨s',w,hstep,hok,-,hframe⟩ := mutexUp_handOff hs hc hval hh ht hne
        exact ⟨s',hstep,hok,hframe⟩
  · have hk := Kernel.mutexUp_ignored (fun h => ht h.2 : ¬ (s.kernel.isValidMutex mutex ∧ _))
    have hnot : s.caller ∉ s.holders := by
      rcases hs.owned with ⟨-,hh,-⟩ | ⟨-,hh⟩
      · simp [hh]
      · simpa [hh] using fun h => ht h.symm
    rw [step,if_pos hc,hk]
    refine ⟨s.afterUp _,rfl,?_,Kernel.Frame.of_eq rfl rfl rfl,rfl⟩
    rw [afterUp_same rfl,Finset.erase_eq_of_notMem hnot,
      Finset.erase_eq_of_notMem (fun h => hnot (hs.returned h))]
    exact hs

theorem mutexDown_inv {s' : MutexRun} (hs : Ok mutex s) (h : step mutex s .mutexDown = some s') :
    Ok mutex s' ∧ s.Calls ∧ Kernel.Frame {s.caller} s.kernel s'.kernel ∧
      (s'.suspended = s.suspended ∨ s'.suspended = insert s.caller s.suspended) := by
  by_cases hc : s.Calls ∧ s.waiting.card < maxBlocked
  · obtain ⟨s₁,he,hok,hrest⟩ := mutexDown_step hs hc.1 hc.2
    rw [he] at h
    cases h
    exact ⟨hok,hc.1,hrest⟩
  · rw [step,if_neg hc] at h
    cases h

theorem mutexUp_inv {s' : MutexRun} (hs : Ok mutex s) (h : step mutex s .mutexUp = some s') :
    Ok mutex s' ∧ s.Calls ∧ Kernel.Frame s.waiting s.kernel s'.kernel ∧
      s'.suspended = s.suspended := by
  by_cases hc : s.Calls
  · obtain ⟨s₁,he,hok,hrest⟩ := mutexUp_step hs hc
    rw [he] at h
    cases h
    exact ⟨hok,hc,hrest⟩
  · rw [step,if_neg hc] at h
    cases h

/-- Changes elsewhere in the kernel that leave the mutex and its waiters alone. -/
theorem Ok.reframe {k : Kernel} (hs : Ok mutex s)
    (hm : k.mutexes mutex = s.kernel.mutexes mutex)
    (hst : ∀ v ∈ s.waiting, k.threadState v = s.kernel.threadState v)
    (hreal : ∀ v, Processes.Real k.processes v ↔ Processes.Real s.kernel.processes v) :
    Ok mutex { s with kernel := k } :=
  ⟨isValidMutex_of_creator (by simp [hm]) hs.valid,by simpa [hm] using hs.list,
    by simpa [hm] using hs.owned,fun w hw => (hreal w).mpr (hs.real w hw),
    fun w hw => (hst w hw).trans (hs.blocked w hw),hs.suspended,hs.handed,hs.returned⟩

theorem step_ok {l : MutexStep} {s' : MutexRun} (hs : Ok mutex s)
    (h : step mutex s l = some s') : Ok mutex s' := by
  cases l with
  | mutexDown => exact (mutexDown_inv hs h).1
  | mutexUp => exact (mutexUp_inv hs h).1
  | resume =>
    rw [step] at h
    split at h
    · rename_i hg
      cases h
      -- the thread runs again, so it is no waiter any more: the mutex was handed to it
      have hn : s.caller ∉ s.waiting := by
        intro hw
        have hb := hs.blocked _ hw
        rw [hg.2] at hb
        cases hb
      refine ⟨hs.valid,hs.list,hs.owned,hs.real,hs.blocked,?_,?_,?_⟩
      · exact fun w hw => Finset.mem_erase.mpr ⟨fun he => hn (he ▸ hw),hs.suspended hw⟩
      · exact fun t ht hw => hs.handed t (Finset.mem_of_mem_erase ht) hw
      · exact Finset.insert_subset (hs.handed _ hg.1 hn) hs.returned
    · cases h
  | dispatch t =>
    rw [step] at h
    split at h
    · rename_i hg
      cases h
      have hsome : (s.kernel.threadState t).isSome := by rw [hg]; rfl
      refine hs.reframe rfl (fun w hw => ?_) (fun w => Kernel.real_dispatch hsome)
      rw [hs.blocked w hw]
      exact Kernel.dispatch_blocked hg (hs.blocked w hw)
    · cases h

theorem run_ok {k : Kernel} (hk : StartsUnlocked mutex k) {ls : List MutexStep}
    (hr : Runs.run (step mutex) (start k) ls = some s) : Ok mutex s :=
  Runs.invariant (fun _ _ _ hs h => step_ok hs h) (start_ok hk) hr

/-- Mutual exclusion and hand-off, in every state of every run. -/
theorem mutual_exclusion {k : Kernel} (hk : StartsUnlocked mutex k) {ls : List MutexStep}
    (hr : Runs.run (step mutex) (start k) ls = some s) :
    s.holders.card ≤ 1 ∧ (∀ t ∈ s.returned, s.holders = {t}) ∧
      (∀ t ∈ s.holders, (s.kernel.mutexes mutex).lockProcess = t) ∧
      ((s.kernel.mutexes mutex).value = unlocked ↔ s.holders = ∅) ∧
      (∀ w ∈ s.waiting, ∃! i, i < maxBlocked ∧ (s.kernel.mutexes mutex).list.blocked i = w) ∧
      (∀ i, i < maxBlocked → ((s.kernel.mutexes mutex).list.blocked i).used →
        (s.kernel.mutexes mutex).list.blocked i ∈ s.waiting) ∧
      (s.kernel.mutexes mutex).list.blockedQuantity = s.waiting.card ∧
      (s.Calls → s.caller ∈ s.holders → s.waiting.Nonempty →
        ∃ s' w, step mutex s .mutexUp = some s' ∧ HandOff mutex s s' w) := by
  have hs := run_ok hk hr
  have hone : ∀ t ∈ s.holders, s.holders = {t} ∧ (s.kernel.mutexes mutex).lockProcess = t ∧
      (s.kernel.mutexes mutex).value = locked := by
    intro t ht
    rcases hs.owned with ⟨-,hh,-⟩ | ⟨hval,hh⟩
    · simp [hh] at ht
    · rw [hh,Finset.mem_singleton] at ht
      exact ⟨ht ▸ hh,ht.symm,hval⟩
  refine ⟨?_,fun t ht => (hone t (hs.returned ht)).1,fun t ht => (hone t ht).2.1,?_,
    fun w hw => hs.list.exists_unique hw,hs.list.entry,hs.list.quantity,?_⟩
  · rcases hs.owned with ⟨-,hh,-⟩ | ⟨-,hh⟩ <;> simp [hh]
  · rcases hs.owned with ⟨hval,hh,-⟩ | ⟨hval,hh⟩ <;> simp [hval,hh,locked,unlocked]
  · intro hc hmem hne
    obtain ⟨hh,ht,hval⟩ := hone _ hmem
    obtain ⟨s',w,hstep,-,hoff,-⟩ := mutexUp_handOff hs hc hval (by rw [ht]; exact hh) ht hne
    exact ⟨s',w,hstep,hoff⟩

def clearedKernel : Kernel where
  processes := Processes.twoThreads
  current := 1
  mutexes := fun _ => Mutex.clear ⟨⟨0,0⟩,⟨0,0⟩,fun _ => 0,BlockedList.empty,0⟩
  firstAvailableMutex := 1
  usedMutexes := 1
  semaphores := fun _ => ⟨⟨0,0⟩,fun _ => 0,BlockedList.empty,0,0⟩

theorem mutual_exclusion_handed :
    ∃ s, Runs.run (step 1) (start (clearedKernel.createMutex 1 [109] 0).2)
      [.mutexDown,.dispatch ⟨2,0⟩,.mutexDown,.dispatch ⟨1,0⟩,.mutexUp] = some s ∧
        s.holders.card ≤ 1 := by
  have he : clearedKernel.createMutex 1 [109] 0 =
      (some 1,(clearedKernel.createMutex 1 [109] 0).2) := rfl
  have hk := createMutex_startsUnlocked (by decide) (by decide) (by decide) rfl
    (Mutex.clear_list _) he
  have hs : (Runs.run (step 1) (start (clearedKernel.createMutex 1 [109] 0).2)
      [.mutexDown,.dispatch ⟨2,0⟩,.mutexDown,.dispatch ⟨1,0⟩,.mutexUp]).isSome := by decide
  obtain ⟨s,hs⟩ := Option.isSome_iff_exists.mp hs
  exact ⟨s,hs,(mutual_exclusion hk hs).1⟩

end MutexRun
end ComplexOS
