import ComplexOS.Kernel.FreshSemaphore
import ComplexOS.Kernel.LockBalance
import ComplexOS.Kernel.MutexPrograms

/-! # What the release of a semaphore does for its waiters

`releaseSemaphore` wakes with `unlockProcess`, which goes by the mutex of the same index. The
count that its loop looks at stays what it is, so that the loop ends only if it does not start.
-/
namespace ComplexOS
open Kernel Call Runs

def Mutex.holder (m : Mutex) : Option ThreadId := if m.value = locked then some m.lockProcess else none

theorem Mutex.holder_open {m : Mutex} (h : m.value ≠ locked) : m.holder = none := if_neg h

theorem BlockedList.Counted.waiters_nil {l : BlockedList} (h : l.Counted) :
    l.waiters = [] ↔ l.blockedQuantity = 0 := by
  have hlen := counted_iff.mp h
  constructor
  · intro hnil
    rw [hlen,hnil]
    rfl
  · exact fun hq => List.length_eq_zero_iff.mp (by omega)

namespace Kernel
variable {k k' : Kernel} {semaphore mutex i : ℤ} {t w : ThreadId} {n : ℕ} {b : Bool}

theorem unlockProcess_semaphores (h : k.unlockProcess mutex = some (b,k')) :
    k'.semaphores = k.semaphores := by
  obtain ⟨-,-,rfl⟩ | ⟨-,hr,-⟩ := unlockProcess_cases h
  · rfl
  · exact hr.semaphores

/-- No number of rounds is enough. -/
theorem unlockAllSemaphore_endless (hq : (k.semaphores semaphore).list.blockedQuantity > 0) :
    unlockAllSemaphore semaphore n k = none := by
  induction n generalizing k with
  | zero =>
    unfold unlockAllSemaphore
    exact if_pos hq
  | succ n ih =>
    unfold unlockAllSemaphore
    rw [if_pos hq]
    apply Option.bind_eq_none_iff.mpr
    rintro ⟨b,k₁⟩ hk
    apply ih
    rw [unlockProcess_semaphores hk]
    exact hq

/-- The loop of `releaseMutex` gets past every entry it comes to. -/
theorem answers_of_unlockAll (hc : (k.mutexes mutex).list.Counted)
    (h : unlockAll mutex n k = some k') :
    ∀ w ∈ (k.mutexes mutex).list.waiters, Processes.Answers k.processes w := by
  induction n generalizing k with
  | zero =>
    unfold unlockAll at h
    split at h
    · cases h
    · rename_i hq
      have hnonneg := hc.nonneg
      rw [hc.waiters_nil.mpr (by omega)]
      exact fun w hw => absurd hw List.not_mem_nil
  | succ n ih =>
    unfold unlockAll at h
    split at h
    · rename_i hq
      obtain ⟨⟨b,k₁⟩,hk,h⟩ := Option.bind_eq_some_iff.mp h
      have hans := unlockProcess_answers hk
      obtain ⟨w,l,hp⟩ := hc.pop_some hq
      simp only [unlockProcess,hp] at hk
      obtain ⟨k₂,hk₂,he⟩ := Option.map_eq_some_iff.mp hk
      obtain ⟨-,rfl⟩ := Prod.mk.inj he
      have hself : k₂.mutexes mutex = { k.mutexes mutex with lockProcess := w, list := l } := by
        rw [(changeThreadState_table hk₂).1,setMutex_mutexes_self]
      intro u hu
      rw [BlockedList.waiters_pop hp] at hu
      obtain rfl | hu := List.mem_cons.mp hu
      · exact (changeThreadState_answers hk₂).1
      · exact (hans u).mp (ih (by rw [hself]; exact hc.pop hp) h u (by rw [hself]; exact hu))
    · rename_i hq
      have hnonneg := hc.nonneg
      rw [hc.waiters_nil.mpr (by omega)]
      exact fun w hw => absurd hw List.not_mem_nil

theorem disownMutex_list : ((k.disownMutex mutex).mutexes mutex).list = (k.mutexes mutex).list := by
  unfold disownMutex
  rw [setMutex_mutexes_self]

theorem releaseMutexBody_isSome (hc : k.isValidMutex mutex → (k.mutexes mutex).list.Counted) :
    (k.releaseMutexBody mutex t).isSome ↔ (k.isValidMutex mutex → (k.mutexes mutex).creator = t →
      ∀ w ∈ (k.mutexes mutex).list.waiters, Processes.Answers k.processes w) := by
  have hlist : ((k.disownMutex mutex).mutexes mutex).list = (k.mutexes mutex).list := disownMutex_list
  unfold releaseMutexBody
  split
  · rename_i hx
    have hcounted : ((k.disownMutex mutex).mutexes mutex).list.Counted := by
      rw [hlist]
      exact hc hx.1
    rw [Option.isSome_map]
    constructor
    · intro h _ _
      obtain ⟨k',hk'⟩ := Option.isSome_iff_exists.mp h
      have hans := answers_of_unlockAll hcounted hk'
      rw [hlist] at hans
      exact hans
    · intro h
      obtain ⟨k',hk',-⟩ := unlockTrace_spec (n := maxBlocked) hcounted (congrArg _ hlist)
        (h hx.1 hx.2) SlotTable.length_entries_le
      rw [unlockAll_of_trace hk']
      rfl
  · rename_i hx
    exact ⟨fun _ hv ht => absurd ⟨hv,ht⟩ hx,fun _ => rfl⟩

theorem releaseMutexBody_other (h : k.releaseMutexBody mutex t = some (b,k')) (hi : i ≠ mutex) :
    k'.mutexes i = k.mutexes i := by
  obtain ⟨-,-,rfl⟩ | ⟨-,-,-,-,m,hm,-⟩ := releaseMutexBody_cases h
  · rfl
  · rw [hm,Function.update_of_ne hi]

/-- A lock that was open is given up again. -/
theorem holder_lockSlot {m : Mutex} (hm : m.value ≠ locked) (hl : (k.mutexes i).list = m.list) :
    ((k.lockSlot i unlocked t).mutexes i).holder = m.holder ∧
      ((k.lockSlot i unlocked t).mutexes i).list = m.list := by
  rw [lockSlot_self,Mutex.holder_open hm]
  exact ⟨rfl,hl⟩

/-- A process has not created the mutexes of the kernel. -/
theorem Guarded.releaseMutexBody_low (hg : k.Guarded) (ht : 0 < t.pid)
    (h : k.releaseMutexBody mutex t = some (b,k')) (h0 : 0 ≤ i) (h2 : i ≤ 2) :
    k'.mutexes i = k.mutexes i := by
  obtain ⟨-,-,rfl⟩ | ⟨-,-,hc,-⟩ := releaseMutexBody_cases h
  · rfl
  · exact releaseMutexBody_other h (fun he => hg.creator_ne h0 h2 ht (he ▸ hc))

end Kernel

namespace Registry
variable {s s' : Registry} {k : Kernel} {i pid thread : ℤ} {name : List UInt8} {r : Option ℤ}
  {t : ThreadId} {l : SlotStep}

/-! ### Lists keep their counts -/

structure Kept (s : Registry) : Prop where
  guarded : s.kernel.Guarded
  semaphoreMutex : s.semaphoreMutex = 1
  mutexes : ∀ i, InMutexes i → (s.kernel.mutexes i).Ok
  semaphores : ∀ i, InSemaphores i → (s.kernel.semaphores i).list.Counted

namespace Kept

theorem congr (h : s.Kept) (hm : s'.kernel.mutexes = s.kernel.mutexes)
    (hf : s'.kernel.firstAvailableMutex = s.kernel.firstAvailableMutex)
    (hl : s'.semaphoreMutex = s.semaphoreMutex)
    (hs : ∀ i, InSemaphores i → (s'.kernel.semaphores i).list.Counted) : s'.Kept := by
  refine ⟨h.guarded.congr (fun i _ _ => by rw [hm]) hf,hl.trans h.semaphoreMutex,fun i hi => ?_,hs⟩
  rw [hm]
  exact h.mutexes i hi

theorem counted_update {x : Semaphore} (h : s.Kept)
    (hs : s'.kernel.semaphores = Function.update s.kernel.semaphores i x)
    (hx : InSemaphores i → x.list.Counted) (j : ℤ) (hj : InSemaphores j) :
    (s'.kernel.semaphores j).list.Counted := by
  rw [hs]
  by_cases he : j = i
  · subst he
    rw [Function.update_self]
    exact hx hj
  · rw [Function.update_of_ne he]
    exact h.semaphores j hj

theorem written (h : s.Kept) (hw : WritesSemaphore i s.kernel k) : Kept { s with kernel := k } := by
  obtain ⟨⟨x,hs,-,hx⟩,hm,hf⟩ := hw
  exact h.congr hm hf rfl (h.counted_update hs (fun hi => hx (h.semaphores i hi)))

/-- What a creation writes to its slot is no list. -/
theorem created (h : s.Kept) (hp : 0 < pid) (hn : 0 ∉ name)
    (hc : createSemaphore pid name thread s = .ok (r,s')) : s'.Kept := by
  have hne : pid ≠ notUsed := by
    have hnot : notUsed = -1 := rfl
    omega
  have hreach : Reaches (TableStep.By pid (fun _ => True)) s.kernel s'.kernel :=
    createSemaphore_reaches trivial hne hn hc
  obtain ⟨live,hsound⟩ := hreach.invariant (I := MutexTable.Sound)
    (fun t l t' hI _ ht => MutexTable.step_sound hI ht) ∅ h.mutexes
  have hlock : s'.semaphoreMutex = s.semaphoreMutex := by
    obtain ⟨-,-,rfl⟩ | ⟨-,-,m,s₁,hg,hx⟩ := createSemaphore_ok hc
    · rfl
    · have hget : s₁.semaphoreMutex = s.semaphoreMutex := by
        obtain ⟨k,-,⟨i,-,-,rfl⟩ | ⟨-,k₁,k₂,-,-,rfl⟩⟩ := getMutex_ok hg
        · rfl
        · rfl
      obtain ⟨-,-,rfl⟩ | ⟨mutex,-,-,rfl⟩ := hx
      · exact hget
      · exact hget
  refine ⟨createSemaphore_guarded h.guarded hp hn hc,hlock.trans h.semaphoreMutex,hsound,?_⟩
  obtain ⟨-,-,⟨mutex,hslots⟩,-⟩ | ⟨-,-,rfl⟩ | ⟨-,-,-,hslots,-⟩ := createSemaphore_cases hc
  · exact h.counted_update hslots (h.semaphores _)
  · exact h.semaphores
  · exact h.counted_update hslots (h.semaphores _)

theorem step (h : s.Kept) (hs : SemaphoreTable.step s l = some s') : s'.Kept := by
  cases l with
  | createSemaphore pid name thread =>
    obtain ⟨⟨hp,hn⟩,hs⟩ := Option.ite_none_right_eq_some.mp hs
    obtain ⟨⟨r,s₁⟩,hx,rfl⟩ := Option.map_eq_some_iff.mp hs
    exact h.created hp hn (ok_of_toOption hx)
  | claimSemaphore pid name thread =>
    cases hs
    exact h.congr rfl rfl rfl (h.counted_update rfl (h.semaphores _))
  | completeSemaphore mutex =>
    cases hs
    exact h.congr rfl rfl rfl (h.counted_update rfl (h.semaphores _))
  | wait semaphore t =>
    obtain ⟨⟨-,ht⟩,hs⟩ := Option.ite_none_right_eq_some.mp hs
    obtain ⟨⟨o,k⟩,hk,rfl⟩ := Option.map_eq_some_iff.mp hs
    exact h.written (waitBody_writes ht hk)
  | signal semaphore =>
    obtain ⟨-,hs⟩ := Option.ite_none_right_eq_some.mp hs
    obtain ⟨k,hk,rfl⟩ := Option.map_eq_some_iff.mp hs
    exact h.written (signalBody_writes hk)
  | setValue semaphore value =>
    obtain ⟨-,hs⟩ := Option.ite_none_right_eq_some.mp hs
    cases hs
    exact h.written ⟨⟨_,rfl,rfl,id⟩,rfl,rfl⟩
  | releaseSemaphore semaphore =>
    obtain ⟨-,hs⟩ := Option.ite_none_right_eq_some.mp hs
    cases hs
    exact h.congr rfl rfl rfl (h.counted_update rfl (h.semaphores _))
  | removeBlocked v semaphore j =>
    obtain ⟨⟨-,hj⟩,hs⟩ := Option.ite_none_right_eq_some.mp hs
    obtain ⟨k,hk,rfl⟩ := Option.map_eq_some_iff.mp hs
    obtain ⟨-,rfl⟩ | ⟨-,hw⟩ := removeBlockedFromSemaphore_writes hj hk
    · exact h
    · exact h.written hw
  | table l =>
    obtain ⟨hl,hs⟩ := Option.ite_none_right_eq_some.mp hs
    obtain ⟨t,ht,rfl⟩ := Option.map_eq_some_iff.mp hs
    have hg : t.kernel.Guarded := Guarded.step (s := ⟨s.kernel,∅⟩) h.guarded hl ht
    exact ⟨hg.congr (fun _ _ _ => rfl) rfl,h.semaphoreMutex,
      MutexTable.step_sound (s := ⟨s.kernel,∅⟩) h.mutexes ht,h.semaphores⟩

end Kept

theorem Booted.kept (h : s.Booted) : s.Kept :=
  ⟨h.guarded,h.semaphoreMutex,h.sane.sound,h.tidy.counted⟩

/-! ### The release -/

variable {semaphore : ℤ}

/-- Nobody is blocked on the semaphore any more, and its own mutex is the only one that has
another holder or other waiters than before. -/
structure Drains (s : Registry) (semaphore : ℤ) (s' : Registry) : Prop where
  ready : ∀ w ∈ (s.kernel.semaphores semaphore).list.waiters, s'.kernel.threadState w = some .ready
  empty : (s'.kernel.semaphores semaphore).list.waiters = []
  others : ∀ i, InMutexes i → i ≠ (s.kernel.semaphores semaphore).mutex →
    (s'.kernel.mutexes i).holder = (s.kernel.mutexes i).holder ∧
      (s'.kernel.mutexes i).list = (s.kernel.mutexes i).list

def Open (s : Registry) : Prop :=
  (s.kernel.mutexes s.semaphoreMutex).value ≠ locked ∧ (s.kernel.mutexes adminMutex).value ≠ locked

/-- If the mutex of the semaphore is the creator's as well, no thread that waits for it has been
freed. -/
def Waking (s : Registry) (semaphore : ℤ) : Prop :=
  let mutex := (s.kernel.semaphores semaphore).mutex
  s.kernel.isValidMutex mutex →
    (s.kernel.mutexes mutex).creator = (s.kernel.semaphores semaphore).creator →
      ∀ w ∈ (s.kernel.mutexes mutex).list.waiters, Processes.Answers s.kernel.processes w

variable {b : Bool}

/-- The release of the semaphore's mutex, with the lock of the table taken. -/
theorem Kept.releaseMutexBody_isSome (h : s.Kept) (semaphore v : ℤ) (t : ThreadId) :
    ((s.kernel.lockSlot 1 v t).releaseMutexBody (s.kernel.semaphores semaphore).mutex
      (s.kernel.semaphores semaphore).creator).isSome ↔ s.Waking semaphore := by
  rw [Kernel.releaseMutexBody_isSome,isValidMutex_lockSlot,lockSlot_creator,lockSlot_list]
  · exact Iff.rfl
  · intro hv
    rw [isValidMutex_lockSlot] at hv
    rw [lockSlot_list]
    exact (h.mutexes _ ⟨hv.1,hv.2.1⟩).counted

def letGo (k : Kernel) (semaphore : ℤ) (t : ThreadId) : Kernel :=
  (k.lockSlot adminMutex unlocked t).disownSemaphore semaphore

theorem letGo_of_ne (h : i ≠ adminMutex) : (letGo k semaphore t).mutexes i = k.mutexes i :=
  lockSlot_of_ne (k := k) (v := unlocked) (t := t) h

/-- With the locks open the call comes to its loop, or it stops at a NULL pointer before that. -/
theorem Kept.releaseSemaphore_loop (h : s.Kept) (ho : s.Open) (hp : 0 < pid)
    (hv : s.kernel.isValidSemaphore semaphore)
    (hc : (s.kernel.semaphores semaphore).creator = ⟨pid,thread⟩)
    (hb : (s.kernel.lockSlot 1 locked ⟨pid,thread⟩).releaseMutexBody
      (s.kernel.semaphores semaphore).mutex ⟨pid,thread⟩ = some (b,k)) :
    releaseSemaphoreBody semaphore ⟨pid,thread⟩
        { s with kernel := s.kernel.lockSlot 1 locked ⟨pid,thread⟩ } =
      (do piece (unlockAllSemaphore semaphore maxBlocked); pure true : KernelCall Bool)
        { s with kernel := letGo k semaphore ⟨pid,thread⟩ } := by
  have hadmin : (s.kernel.lockSlot 1 locked ⟨pid,thread⟩).mutexes adminMutex =
      s.kernel.mutexes adminMutex := lockSlot_of_ne (by decide)
  have hok := h.mutexes adminMutex (by decide)
  have hrelease := releaseMutex_guarded
    (s := { s with kernel := s.kernel.lockSlot 1 locked ⟨pid,thread⟩ }) h.guarded.lockSlot
    (by rw [hadmin]; exact ho.2) (by rw [hadmin]; exact hok.counted.pop_none.mpr (hok.idle ho.2)) hp hb
  unfold releaseSemaphoreBody
  rw [get_bind,if_pos ⟨hv,hc⟩]
  exact bind_of_ok hrelease

theorem releaseMutex_fails (hg : s.kernel.Guarded)
    (hf : (s.kernel.mutexes adminMutex).value ≠ locked) (hp : 0 < pid)
    (hb : s.kernel.releaseMutexBody i ⟨pid,thread⟩ = none) :
    releaseMutex pid i thread s = .error .fails := by
  have hne : i ≠ adminMutex := by
    rintro rfl
    have hc := hg.creator_ne (i := adminMutex) (t := ⟨pid,thread⟩) (by decide) (by decide) hp
    unfold Kernel.releaseMutexBody at hb
    rw [if_neg (fun hx => hc hx.2)] at hb
    cases hb
  have hbody : releaseMutexBody i ⟨pid,thread⟩
      { s with kernel := s.kernel.lockSlot adminMutex locked ⟨pid,thread⟩ } = .error .fails := by
    apply partly_error.mpr
    refine ⟨?_,rfl⟩
    rw [releaseMutexBody_lockSlot hne,hb]
    rfl
  unfold releaseMutex
  rw [bind_of_ok (mutexDown_guarded hg (by decide) (by decide) hf),bind_of_error hbody]

theorem Kept.down (h : s.Kept) (ho : s.Open) : mutexDown s.semaphoreMutex t s =
    .ok ((),{ s with kernel := s.kernel.lockSlot 1 locked t }) :=
  semaphoreMutex_down h.guarded h.semaphoreMutex (h.semaphoreMutex ▸ ho.1)

theorem letGo_list (hs : k.semaphores = s.kernel.semaphores) :
    ((letGo k semaphore t).semaphores semaphore).list = (s.kernel.semaphores semaphore).list := by
  unfold letGo disownSemaphore
  rw [setSemaphore_semaphores_self]
  exact congrArg (fun f => (f semaphore).list) hs

theorem Kept.releaseSemaphore_fails (h : s.Kept) (ho : s.Open) (hp : 0 < pid)
    (hv : s.kernel.isValidSemaphore semaphore)
    (hc : (s.kernel.semaphores semaphore).creator = ⟨pid,thread⟩)
    (hw : ¬ ((s.kernel.semaphores semaphore).list.waiters = [] ∧ s.Waking semaphore)) :
    releaseSemaphore pid semaphore thread s = .error .fails := by
  have hsome := h.releaseMutexBody_isSome semaphore locked ⟨pid,thread⟩
  rw [hc] at hsome
  unfold releaseSemaphore
  rw [get_bind,bind_of_ok (h.down ho)]
  apply bind_of_error
  cases hb : (s.kernel.lockSlot 1 locked ⟨pid,thread⟩).releaseMutexBody
      (s.kernel.semaphores semaphore).mutex ⟨pid,thread⟩ with
  | none =>
    have hadmin : (s.kernel.lockSlot 1 locked ⟨pid,thread⟩).mutexes adminMutex =
        s.kernel.mutexes adminMutex := lockSlot_of_ne (by decide)
    unfold releaseSemaphoreBody
    rw [get_bind,if_pos ⟨hv,hc⟩]
    exact bind_of_error (releaseMutex_fails h.guarded.lockSlot (by rw [hadmin]; exact ho.2) hp hb)
  | some x =>
    obtain ⟨b,k⟩ := x
    have hcount := h.semaphores semaphore ⟨hv.1,hv.2.1⟩
    have hq : (s.kernel.semaphores semaphore).list.blockedQuantity > 0 := by
      have hnonneg := hcount.nonneg
      have hne : (s.kernel.semaphores semaphore).list.blockedQuantity ≠ 0 := fun hx =>
        hw ⟨hcount.waiters_nil.mpr hx,hsome.mp (by rw [hb]; rfl)⟩
      omega
    have hs : k.semaphores = (s.kernel.lockSlot 1 locked ⟨pid,thread⟩).semaphores :=
      releaseMutexBody_semaphores hb
    rw [h.releaseSemaphore_loop ho hp hv hc hb]
    apply bind_of_error
    apply piece_fails
    apply unlockAllSemaphore_endless
    rw [letGo_list hs]
    exact hq

theorem Kept.releaseSemaphore_drains (h : s.Kept) (ho : s.Open) (hp : 0 < pid)
    (hv : s.kernel.isValidSemaphore semaphore)
    (hc : (s.kernel.semaphores semaphore).creator = ⟨pid,thread⟩)
    (hw : (s.kernel.semaphores semaphore).list.waiters = []) (ha : s.Waking semaphore) :
    ∃ s', releaseSemaphore pid semaphore thread s = .ok (true,s') ∧ Drains s semaphore s' := by
  have hsome := h.releaseMutexBody_isSome semaphore locked ⟨pid,thread⟩
  rw [hc] at hsome
  obtain ⟨⟨b,k⟩,hb⟩ := Option.isSome_iff_exists.mp (hsome.mpr ha)
  have hs : k.semaphores = (s.kernel.lockSlot 1 locked ⟨pid,thread⟩).semaphores :=
    releaseMutexBody_semaphores hb
  have hlist : ((letGo k semaphore ⟨pid,thread⟩).semaphores semaphore).list =
      (s.kernel.semaphores semaphore).list := letGo_list hs
  have hcount := h.semaphores semaphore ⟨hv.1,hv.2.1⟩
  have hloop : unlockAllSemaphore semaphore maxBlocked (letGo k semaphore ⟨pid,thread⟩) =
      some (letGo k semaphore ⟨pid,thread⟩) := by
    apply unlockAllSemaphore_idle
    rw [hlist]
    exact hcount.waiters_nil.mp hw
  have hg : (letGo k semaphore ⟨pid,thread⟩).Guarded :=
    (h.guarded.lockSlot.releaseMutexBody hp hb).lockSlot.congr (fun _ _ _ => rfl) rfl
  -- the slots of the kernel are not those of a process
  have hlow : ∀ i, 0 ≤ i → i ≤ 2 → k.mutexes i = (s.kernel.lockSlot 1 locked ⟨pid,thread⟩).mutexes i :=
    fun i h0 h2 => h.guarded.lockSlot.releaseMutexBody_low hp hb h0 h2
  have hself : (letGo k semaphore ⟨pid,thread⟩).mutexes 1 = { s.kernel.mutexes 1 with
      value := locked
      lockProcess := ⟨pid,thread⟩ } := by
    rw [letGo_of_ne (by decide),hlow 1 (by decide) (by decide),lockSlot_self]
  have hok := h.mutexes 1 (by decide)
  have hup : mutexUp s.semaphoreMutex ⟨pid,thread⟩
      { s with kernel := letGo k semaphore ⟨pid,thread⟩ } = .ok ((),{ s with
        kernel := (letGo k semaphore ⟨pid,thread⟩).lockSlot 1 unlocked ⟨pid,thread⟩ }) := by
    rw [h.semaphoreMutex]
    apply mutexUp_ok.mpr
    refine ⟨_,mutexUp_held hg (by decide) (by decide) (by rw [hself]) ?_,rfl⟩
    rw [hself]
    exact hok.counted.pop_none.mpr (hok.idle (h.semaphoreMutex ▸ ho.1))
  have hbody := (h.releaseSemaphore_loop ho hp hv hc hb).trans
    (bind_of_ok (a := ()) (piece_ok.mpr ⟨_,hloop,rfl⟩))
  have hcall : releaseSemaphore pid semaphore thread s = .ok (true,{ s with
      kernel := (letGo k semaphore ⟨pid,thread⟩).lockSlot 1 unlocked ⟨pid,thread⟩ }) := by
    unfold releaseSemaphore
    rw [get_bind,bind_of_ok (h.down ho)]
    exact (bind_of_ok hbody).trans (bind_of_ok hup)
  refine ⟨_,hcall,⟨fun w hx => ?_,?_,fun i hi hne => ?_⟩⟩
  · rw [hw] at hx
    cases hx
  · show ((letGo k semaphore ⟨pid,thread⟩).semaphores semaphore).list.waiters = []
    rw [hlist]
    exact hw
  · have hk : k.mutexes i = (s.kernel.lockSlot 1 locked ⟨pid,thread⟩).mutexes i :=
      releaseMutexBody_other hb hne
    by_cases h1 : i = 1
    · subst h1
      exact holder_lockSlot (h.semaphoreMutex ▸ ho.1) (by rw [hself])
    have hlast : ((letGo k semaphore ⟨pid,thread⟩).lockSlot 1 unlocked ⟨pid,thread⟩).mutexes i =
        (k.lockSlot adminMutex unlocked ⟨pid,thread⟩).mutexes i := lockSlot_of_ne h1
    have hfirst : (s.kernel.lockSlot 1 locked ⟨pid,thread⟩).mutexes i = s.kernel.mutexes i :=
      lockSlot_of_ne h1
    simp only [hlast]
    by_cases h0 : i = adminMutex
    · subst h0
      exact holder_lockSlot ho.2 (by rw [hk,hfirst])
    · rw [lockSlot_of_ne h0,hk,hfirst]
      exact ⟨rfl,rfl⟩

/-- Where a lock is taken already the caller waits for it. -/
theorem Kept.open_of_ok (h : s.Kept) {b : Bool} (hv : s.kernel.isValidSemaphore semaphore)
    (hc : (s.kernel.semaphores semaphore).creator = ⟨pid,thread⟩)
    (hx : releaseSemaphore pid semaphore thread s = .ok (b,s')) : s.Open := by
  have hsem : (s.kernel.mutexes s.semaphoreMutex).value ≠ locked := by
    intro hl
    unfold releaseSemaphore at hx
    rw [get_bind,bind_of_error (semaphoreMutex_waits h.guarded h.semaphoreMutex hl)] at hx
    cases hx
  refine ⟨hsem,fun hl => ?_⟩
  have hadmin : (s.kernel.lockSlot 1 locked ⟨pid,thread⟩).mutexes adminMutex =
      s.kernel.mutexes adminMutex := lockSlot_of_ne (by decide)
  obtain ⟨e,he⟩ : ∃ e, releaseSemaphoreBody semaphore ⟨pid,thread⟩
      { s with kernel := s.kernel.lockSlot 1 locked ⟨pid,thread⟩ } = .error e :=
    releaseSemaphoreBody_waits h.guarded.lockSlot (by rw [hadmin]; exact hl) ⟨hv,hc⟩
  have hdown := semaphoreMutex_down (t := ⟨pid,thread⟩) h.guarded h.semaphoreMutex
    (h.semaphoreMutex ▸ hsem)
  unfold releaseSemaphore at hx
  rw [get_bind,bind_of_ok hdown,bind_of_error he] at hx
  cases hx

/-- Where nobody is blocked the release meets its purpose if the locks are open and no waiter of
its mutex has been freed, and otherwise it does not. With anybody blocked it never ends. -/
theorem semaphore_release {s₀ : Registry} {ls : List SlotStep} (hm : main static = .ok ((),s₀))
    (hr : run SemaphoreTable.step s₀ ls = some s) (hp : 0 < pid)
    (hv : s.kernel.isValidSemaphore semaphore)
    (hc : (s.kernel.semaphores semaphore).creator = ⟨pid,thread⟩) :
    ((∃ s', releaseSemaphore pid semaphore thread s = .ok (true,s') ∧ Drains s semaphore s') ↔
      s.Open ∧ (s.kernel.semaphores semaphore).list.waiters = [] ∧ s.Waking semaphore) ∧
    (s.Open → (s.kernel.semaphores semaphore).list.waiters ≠ [] →
      releaseSemaphore pid semaphore thread s = .error .fails) := by
  obtain ⟨s₁,hs₁,hb⟩ := main_booted
  rw [hs₁] at hm
  cases hm
  have h : s.Kept := Runs.invariant (fun _ _ _ => Kept.step) hb.kept hr
  refine ⟨⟨?_,?_⟩,fun ho hw => h.releaseSemaphore_fails ho hp hv hc (fun hx => hw hx.1)⟩
  · rintro ⟨s',hx,-⟩
    have ho := h.open_of_ok hv hc hx
    refine ⟨ho,?_⟩
    by_contra hw
    rw [h.releaseSemaphore_fails ho hp hv hc hw] at hx
    cases hx
  · rintro ⟨ho,hw,ha⟩
    exact h.releaseSemaphore_drains ho hp hv hc hw ha

/-- A semaphore that has just been created. -/
theorem firstSemaphore_created (h : s.Booted) : ∃ s',
    SemaphoreTable.step s (.createSemaphore 1 [115] 0) = some s' ∧ s'.kernel.Quiet ∧ s'.Kept ∧
      s'.Open ∧ s'.kernel.isValidSemaphore 0 ∧ (s'.kernel.semaphores 0).creator = ⟨1,0⟩ ∧
      (s'.kernel.semaphores 0).value = 0 ∧ (s'.kernel.semaphores 0).list = clearedSemaphore.list := by
  have hfind := (SemaphoreTable.Booted.crowded h).findMutex_none
  obtain ⟨r,s',hcall,hq,hl,hnone⟩ : ∃ r s', createSemaphore 1 [115] 0 s = .ok (r,s') ∧ _ :=
    createSemaphore_quiet ⟨1,0⟩ h.quiet (h.open_mutex (by decide))
      (h.usedSemaphores.trans_lt (by decide)) (by decide)
  have hadmin : (s.kernel.mutexes adminMutex).value = unlocked := by
    rw [h.mutexes _ (by decide)]
    exact bootMutex_value
  obtain ⟨r₁,s₁,hcall₁,hcreates⟩ : ∃ r₁ s₁, createSemaphore 1 [115] 0 s = .ok (r₁,s₁) ∧ _ :=
    createSemaphore_creates h.guarded hadmin (h.quiet.pop (by decide))
  rw [hcall] at hcall₁
  cases hcall₁
  have hstep : SemaphoreTable.step s (.createSemaphore 1 [115] 0) = some s' := by
    simp only [SemaphoreTable.step]
    rw [if_pos ⟨by decide,by decide⟩,hcall]
    rfl
  obtain ⟨-,-,⟨mutex,hslots⟩,-⟩ | ⟨hr,-⟩ | ⟨hr,-⟩ := createSemaphore_cases hcall
  · rw [h.firstSemaphore,h.semaphores 0 (by decide)] at hslots
    have hself := (congrFun hslots 0).trans (Function.update_self _ _ _)
    refine ⟨s',hstep,hq,h.kept.step hstep,⟨?_,?_⟩,⟨by decide,by decide,?_⟩,?_,?_,?_⟩
    · rw [hl,h.semaphoreMutex,hcreates.others 1 (by decide) (by decide)]
      exact h.open_mutex (by decide)
    · rw [hcreates.kept (fun hx => hx.2 hfind)]
      decide
    all_goals rw [hself]
    · exact (by decide : (1 : ℤ) ≠ notUsed)
    · rfl
  · exact absurd (h.usedMutexes.trans_lt (by decide)) (hnone.mp hr).2
  · exact absurd (h.usedMutexes.trans_lt (by decide)) (hnone.mp hr).2

/-- A semaphore that nobody has waited for. -/
theorem semaphore_release_idle : ∃ s₀ s s', main static = .ok ((),s₀) ∧
    run SemaphoreTable.step s₀ [.createSemaphore 1 [115] 0] = some s ∧
    releaseSemaphore 1 0 0 s = .ok (true,s') ∧ Drains s 0 s' := by
  obtain ⟨s₀,hm,hb⟩ := main_booted
  obtain ⟨s,hs,hq,hk,ho,hv,hc,-,hlist⟩ := firstSemaphore_created hb
  have hr : run SemaphoreTable.step s₀ [.createSemaphore 1 [115] 0] = some s := run_cons.mpr ⟨s,hs,rfl⟩
  have hw : (s.kernel.semaphores 0).list.waiters = [] := by
    rw [hlist]
    exact clearedSemaphore_counted.waiters_nil.mpr rfl
  have ha : s.Waking 0 := by
    intro hv _ w hw
    have hi : InMutexes (s.kernel.semaphores 0).mutex := ⟨hv.1,hv.2.1⟩
    rw [(hk.mutexes _ hi).counted.waiters_nil.mpr (hq.idle _ hi)] at hw
    cases hw
  obtain ⟨s',hx⟩ := ((semaphore_release hm hr (by decide) hv hc).1.mpr ⟨ho,hw,ha⟩)
  exact ⟨s₀,s,s',hm,hr,hx⟩

def secondProcess : ℤ → Option Process := fun pid =>
  if pid = 2 then some ⟨1,0,fun i => if i = 0 then some ⟨.ready,notWaiting,0⟩ else none,0⟩ else none

/-- The thread of process `2` waits, and the creator releases. -/
theorem semaphore_release_fails : ∃ (s₀ s : Registry) (ls : List SlotStep),
    main static = .ok ((),s₀) ∧ run SemaphoreTable.step s₀ ls = some s ∧
    s.kernel.isValidSemaphore 0 ∧ (s.kernel.semaphores 0).creator = ⟨1,0⟩ ∧
    ⟨2,0⟩ ∈ (s.kernel.semaphores 0).list.waiters ∧ s.kernel.threadState ⟨2,0⟩ = some .blocked ∧
    s.Open ∧ releaseSemaphore 1 0 0 s = .error .fails := by
  obtain ⟨s₀,hm,hb⟩ := main_booted
  obtain ⟨s,hs,hq,hk,ho,hv,hc,hvalue,hlist⟩ := firstSemaphore_created hb
  -- the process is there, and its thread is queued
  obtain ⟨k,hk₁⟩ : ∃ k : Kernel, { s.kernel with processes := secondProcess } = k := ⟨_,rfl⟩
  have hprocesses : k.processes = secondProcess := by rw [← hk₁]
  have hsemaphores : k.semaphores = s.kernel.semaphores := by rw [← hk₁]
  have hmutexes : k.mutexes = s.kernel.mutexes := by rw [← hk₁]
  have hother : SemaphoreTable.step s (.table (.other k)) = some { s with kernel := k } := by
    rw [← hk₁]
    rfl
  have hreal : Processes.Real k.processes ⟨2,0⟩ := by
    rw [hprocesses]
    decide
  obtain ⟨l,hl,hmem⟩ : ∃ l, clearedSemaphore.list.add ⟨2,0⟩ = some l ∧ ⟨2,0⟩ ∈ l.waiters :=
    ⟨_,rfl,SlotTable.mem_entries.mpr ⟨by decide,0,by decide,rfl⟩⟩
  have hself : k.semaphores 0 = s.kernel.semaphores 0 := congrFun hsemaphores 0
  obtain ⟨k',hwait,hx,hps,-,hm'⟩ : ∃ k', k.waitBody 0 ⟨2,0⟩ = some (.queued,k') ∧ _ :=
    waitBody_queued (by rw [hself,hvalue]; decide) (by rw [hself,hvalue]) hreal
      (by rw [hself,hlist]; exact hl)
  have hqueued : SemaphoreTable.step { s with kernel := k } (.wait 0 ⟨2,0⟩) =
      some { s with kernel := k' } := by
    simp only [SemaphoreTable.step]
    rw [if_pos ⟨by decide,by decide⟩,hwait]
    rfl
  have hkept : Kept { s with kernel := k' } := (hk.step hother).step hqueued
  have hopen : Open { s with kernel := k' } := by
    unfold Open
    rw [hm',hmutexes]
    exact ho
  have hcreator : (k'.semaphores 0).creator = ⟨1,0⟩ := by
    rw [hx,hself]
    exact hc
  have hvalid : k'.isValidSemaphore 0 := ⟨by decide,by decide,by rw [hcreator]; decide⟩
  have hwaits : ⟨2,0⟩ ∈ (k'.semaphores 0).list.waiters := by
    rw [hx]
    exact hmem
  refine ⟨s₀,_,[.createSemaphore 1 [115] 0,.table (.other k),.wait 0 ⟨2,0⟩],hm,
    run_cons.mpr ⟨s,hs,run_cons.mpr ⟨_,hother,run_cons.mpr ⟨_,hqueued,rfl⟩⟩⟩,hvalid,hcreator,hwaits,
    threadState_of_set hps hreal.isSome,hopen,?_⟩
  apply hkept.releaseSemaphore_fails hopen (by decide) hvalid hcreator
  rintro ⟨hnil,-⟩
  have hnone : ⟨2,0⟩ ∈ ([] : List ThreadId) := hnil ▸ hwaits
  cases hnone

end Registry
end ComplexOS
