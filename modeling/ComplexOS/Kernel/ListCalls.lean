import ComplexOS.Kernel.MutexTable
import ComplexOS.Kernel.SemaphoreRuns

/-! # The kernel calls and the threads on their lists

Whoever is on the list of a mutex or of a semaphore is BLOCKED. A call puts its own thread
on one list at most, or takes at most one thread off it and makes that one READY.
-/
namespace ComplexOS

namespace Kernel
variable {k k' : Kernel} {mutex semaphore : ℤ} {t w : ThreadId} {o : DownOutcome} {l : BlockedList}
  {W changed wider : Finset ThreadId} {st : ProcessState} {b : Bool}

structure Undisturbed (changed : Finset ThreadId) (k k' : Kernel) : Prop where
  caller : k'.caller = k.caller
  state : ∀ u, u ∉ changed → k'.threadState u = k.threadState u
  real : ∀ u, Processes.Real k'.processes u ↔ Processes.Real k.processes u

theorem Undisturbed.of_eq (hp : k'.processes = k.processes) (hc : k'.current = k.current) :
    Undisturbed changed k k' :=
  ⟨by simp [Kernel.caller,getpid,getCurrentThread,hp,hc],fun v _ => by simp [Kernel.threadState,hp],
    fun v => by rw [hp]⟩

theorem Undisturbed.of_set (hp : k'.processes = Processes.setThreadState k.processes t st)
    (hc : k'.current = k.current) : Undisturbed {t} k k' := by
  refine ⟨by simp [Kernel.caller,getpid,getCurrentThread,hp,hc],fun v hv => ?_,fun v => by simp [hp]⟩
  exact threadState_of_set_ne hp (fun h => hv (Finset.mem_singleton.mpr h))

def Blocked (k : Kernel) (W : Finset ThreadId) : Prop :=
  ∀ w ∈ W, Processes.Real k.processes w ∧ k.threadState w = some .blocked

theorem Blocked.empty : k.Blocked ∅ := fun w hw => by cases hw

theorem Blocked.undisturbed (h : k.Blocked W) (hk : Undisturbed changed k k')
    (hw : ∀ w ∈ W, w ∉ changed) : k'.Blocked W :=
  fun w hx => ⟨(hk.real w).mpr (h w hx).1,(hk.state w (hw w hx)).trans (h w hx).2⟩

theorem Blocked.undisturbed_one (h : k.Blocked W) (hk : Undisturbed {t} k k') (ht : t ∉ W) :
    k'.Blocked W := by
  refine h.undisturbed hk (fun w hw hx => ?_)
  rw [Finset.mem_singleton.mp hx] at hw
  exact ht hw

theorem Blocked.insert (h : k.Blocked W) (ht : Processes.Real k.processes t)
    (hp : k'.processes = Processes.setThreadState k.processes t .blocked) :
    k'.Blocked (insert t W) := by
  have hreal : ∀ u, Processes.Real k'.processes u ↔ Processes.Real k.processes u :=
    fun u => by rw [hp,Processes.real_set]
  intro w hw
  by_cases he : w = t
  · subst he
    exact ⟨(hreal w).mpr ht,threadState_of_set hp ht.isSome⟩
  · have hmem := Finset.mem_of_mem_insert_of_ne hw he
    exact ⟨(hreal w).mpr (h w hmem).1,(threadState_of_set_ne hp he).trans (h w hmem).2⟩

/-! ### Blocking -/

theorem mutexDown_processes (ht : Processes.Real k.processes t)
    (h : k.mutexDown mutex t = some (o,k')) :
    (o = .queued ∧ k'.processes = Processes.setThreadState k.processes t .blocked) ∨
      (o ≠ .queued ∧ k'.processes = k.processes) := by
  rw [mutexDown] at h
  split at h
  · simp only at h
    split at h
    · split at h
      · rename_i k₁ hadd
        obtain ⟨k₂,hk,he⟩ := Option.map_eq_some_iff.mp h
        cases he
        obtain ⟨l,-,rfl⟩ := Option.map_eq_some_iff.mp hadd
        rw [changeThreadState_real (by exact ht)] at hk
        cases hk
        exact Or.inl ⟨rfl,rfl⟩
      · cases h
        exact Or.inr ⟨by decide,rfl⟩
    · cases h
      exact Or.inr ⟨by decide,rfl⟩
  · cases h
    exact Or.inr ⟨by decide,rfl⟩

structure Lists (mutex : ℤ) (W : Finset ThreadId) (k k' : Kernel) : Prop where
  self : (k'.mutexes mutex).list.Holds W
  other : ∀ i, i ≠ mutex → (k'.mutexes i).list = (k.mutexes i).list

theorem marked_lists {m : Mutex} (hl : m.list.Holds W) (hm : k'.mutexes = marked k mutex m) :
    Lists mutex W k k' := by
  constructor
  · rw [hm,marked_self]
    exact hl
  · intro i hi
    rw [hm]
    exact (marked_of_ne hi).1

/-- Where a call of `mutexDown` puts its thread. -/
theorem mutexDown_spec (hl : (k.mutexes mutex).list.Holds W) (hw : t ∉ W)
    (ht : Processes.Real k.processes t) (h : k.mutexDown mutex t = some (o,k')) :
    k'.semaphores = k.semaphores ∧ Lists mutex (if o = .queued then insert t W else W) k k' ∧
      Undisturbed {t} k k' ∧ (o ≠ .queued → k'.processes = k.processes) ∧
      (o = .queued → k'.processes = Processes.setThreadState k.processes t .blocked) := by
  have hproc := mutexDown_processes ht h
  obtain ⟨-,rfl,rfl⟩ | ⟨-,hrest,m,hm,htable⟩ := mutexDown_cases h
  · exact ⟨rfl,⟨hl,fun _ _ => rfl⟩,Undisturbed.of_eq rfl rfl,fun _ => rfl,fun hx => (by cases hx)⟩
  · refine ⟨hrest.semaphores,marked_lists ?_ htable,?_,?_,?_⟩
    · cases hm with
      | free => exact hl
      | queued _ ha => exact hl.add_some hw (MutexRun.used_of_real ht) ha
      | full => exact hl
    · obtain ⟨-,hp⟩ | ⟨-,hp⟩ := hproc
      · exact Undisturbed.of_set hp hrest.current
      · exact Undisturbed.of_eq hp hrest.current
    · intro ho
      obtain ⟨hq,-⟩ | ⟨-,hp⟩ := hproc
      · exact absurd hq ho
      · exact hp
    · intro ho
      obtain ⟨-,hp⟩ | ⟨hq,-⟩ := hproc
      · exact hp
      · exact absurd ho hq

/-! ### Waking -/

theorem mutexUp_processes (hl : (k.mutexes mutex).list.Holds W) (hb : k.Blocked W)
    (h : k.mutexUp mutex t = some k') : k'.current = k.current ∧
      ((k'.processes = k.processes ∧ Lists mutex W k k') ∨ ∃ w ∈ W,
        k'.processes = Processes.setThreadState k.processes w .ready ∧ Lists mutex (W.erase w) k k') := by
  rw [mutexUp] at h
  split at h
  · obtain ⟨⟨b,k₁⟩,hk,rfl⟩ := Option.map_eq_some_iff.mp h
    obtain ⟨rfl,-,rfl⟩ | ⟨rfl,hr,w,l,hp,hm⟩ := unlockProcess_cases hk
    · refine ⟨rfl,Or.inl ⟨rfl,?_,fun i hi => ?_⟩⟩
      · show ((k₁.setMutex mutex { k₁.mutexes mutex with value := unlocked }).mutexes mutex).list.Holds W
        rw [setMutex_mutexes_self]
        exact hl
      · show ((k₁.setMutex mutex _).mutexes i).list = _
        rw [setMutex_mutexes_of_ne _ hi]
    · obtain ⟨hw,hl'⟩ := hl.pop_some hp
      obtain ⟨k₂,hk₂,-,hproc,hcur,-⟩ := unlockProcess_pop (hb w hw).1 hp
      rw [hk] at hk₂
      cases hk₂
      refine ⟨hr.current,Or.inr ⟨w,hw,hproc,?_,fun i hi => ?_⟩⟩
      · show (k₁.mutexes mutex).list.Holds _
        rw [hm,Function.update_self]
        exact hl'
      · show (k₁.mutexes i).list = _
        rw [hm,Function.update_of_ne hi]
  · cases h
    exact ⟨rfl,Or.inl ⟨rfl,hl,fun _ _ => rfl⟩⟩

/-- The threads that a step takes off a list are those that it makes READY. -/
theorem woken_spec (hb : k.Blocked W)
    (h : k'.processes = k.processes ∨ ∃ w ∈ W,
      k'.processes = Processes.setThreadState k.processes w .ready) (hc : k'.current = k.current) :
    Undisturbed (woken k k' W) k k' ∧ (woken k k' W).card ≤ 1 ∧
      (woken k k' W = ∅ ∧ k'.processes = k.processes ∨ ∃ w ∈ W, woken k k' W = {w} ∧
        k'.processes = Processes.setThreadState k.processes w .ready) := by
  obtain hp | ⟨w,hw,hp⟩ := h
  · have hwoken : woken k k' W = ∅ := MutexRun.woken_same hp
    exact ⟨Undisturbed.of_eq hp hc,by rw [hwoken]; exact Nat.zero_le _,Or.inl ⟨hwoken,hp⟩⟩
  · have hwoken : woken k k' W = {w} :=
      MutexRun.woken_single hw (fun v hv => (hb v hv).2) (hb w hw).1.isSome hp
    rw [hwoken]
    exact ⟨Undisturbed.of_set hp hc,le_of_eq (Finset.card_singleton w),Or.inr ⟨w,hw,rfl,hp⟩⟩

theorem mutexUp_spec (hl : (k.mutexes mutex).list.Holds W) (hb : k.Blocked W)
    (h : k.mutexUp mutex t = some k') : k'.semaphores = k.semaphores ∧
      Lists mutex (W \ woken k k' W) k k' ∧ Undisturbed (woken k k' W) k k' := by
  have hsem : k'.semaphores = k.semaphores := by
    obtain ⟨-,rfl⟩ | ⟨-,-,hr,-⟩ := mutexUp_cases h
    · rfl
    · exact hr.semaphores
  obtain ⟨hcur,hp⟩ := mutexUp_processes hl hb h
  have hproc : k'.processes = k.processes ∨ ∃ w ∈ W,
      k'.processes = Processes.setThreadState k.processes w .ready := by
    obtain ⟨hp,-⟩ | ⟨w,hw,hp,-⟩ := hp
    · exact Or.inl hp
    · exact Or.inr ⟨w,hw,hp⟩
  refine ⟨hsem,?_,(woken_spec hb hproc hcur).1⟩
  obtain ⟨hp,hlists⟩ | ⟨w,hw,hp,hlists⟩ := hp
  · rw [MutexRun.woken_same hp,Finset.sdiff_empty]
    exact hlists
  · rw [MutexRun.woken_single hw (fun v hv => (hb v hv).2) (hb w hw).1.isSome hp,
      Finset.sdiff_singleton_eq_erase]
    exact hlists

/-! ### The bodies of `wait` and `signal` -/

structure Counted (semaphore v : ℤ) (W : Finset ThreadId) (k k' : Kernel) : Prop where
  mutexes : k'.mutexes = k.mutexes
  value : (k'.semaphores semaphore).value = v
  list : (k'.semaphores semaphore).list.Holds W
  creator : (k'.semaphores semaphore).creator = (k.semaphores semaphore).creator
  mutex : (k'.semaphores semaphore).mutex = (k.semaphores semaphore).mutex
  other : ∀ i, i ≠ semaphore → k'.semaphores i = k.semaphores i

theorem Counted.of_update {s : Semaphore} (hm : k'.mutexes = k.mutexes)
    (hs : k'.semaphores = Function.update k.semaphores semaphore s) (hl : s.list.Holds W)
    (hc : s.creator = (k.semaphores semaphore).creator)
    (hx : s.mutex = (k.semaphores semaphore).mutex) : Counted semaphore s.value W k k' := by
  have hself : k'.semaphores semaphore = s := by rw [hs,Function.update_self]
  constructor
  · exact hm
  · rw [hself]
  · rw [hself]
    exact hl
  · rw [hself]
    exact hc
  · rw [hself]
    exact hx
  · intro i hi
    rw [hs,Function.update_of_ne hi]

theorem waitBody_spec (hl : (k.semaphores semaphore).list.Holds W) (hw : t ∉ W)
    (ht : Processes.Real k.processes t) (h : k.waitBody semaphore t = some (o,k')) :
    Counted semaphore ((k.semaphores semaphore).value-1) (if o = .queued then insert t W else W) k k' ∧
      Undisturbed {t} k k' ∧ (o = .returned → 0 < (k.semaphores semaphore).value) ∧
      (o ≠ .queued → k'.processes = k.processes) ∧
      (o = .queued → k'.processes = Processes.setThreadState k.processes t .blocked) := by
  simp only [waitBody] at h
  obtain ⟨v,hv,h⟩ := Option.bind_eq_some_iff.mp h
  obtain rfl : v = (k.semaphores semaphore).value-1 := by
    unfold decrement at hv
    split at hv
    · exact (Option.some.inj hv).symm
    · cases hv
  split at h
  · split at h
    · rename_i k₁ hadd
      obtain ⟨k₂,hk,he⟩ := Option.map_eq_some_iff.mp h
      cases he
      obtain ⟨l,ha,rfl⟩ := Option.map_eq_some_iff.mp hadd
      rw [changeThreadState_real (by exact ht)] at hk
      cases hk
      rw [setSemaphore_semaphores_self] at ha
      have hl' := hl.add_some hw (MutexRun.used_of_real ht) ha
      refine ⟨?_,Undisturbed.of_set rfl rfl,fun ho => (by cases ho),fun ho => absurd rfl ho,
        fun _ => rfl⟩
      refine Counted.of_update (s := { k.semaphores semaphore with
        value := (k.semaphores semaphore).value-1, list := l }) rfl ?_ hl' rfl rfl
      simp [setSemaphore]
    · cases h
      exact ⟨Counted.of_update (s := { k.semaphores semaphore with
        value := (k.semaphores semaphore).value-1 }) rfl rfl hl rfl rfl,Undisturbed.of_eq rfl rfl,
        fun ho => (by cases ho),fun _ => rfl,fun ho => (by cases ho)⟩
  · rename_i hneg
    cases h
    exact ⟨Counted.of_update (s := { k.semaphores semaphore with
      value := (k.semaphores semaphore).value-1 }) rfl rfl hl rfl rfl,Undisturbed.of_eq rfl rfl,
      fun _ => (by omega),fun _ => rfl,fun ho => (by cases ho)⟩

theorem signalBody_spec (hl : (k.semaphores semaphore).list.Holds W) (hb : k.Blocked W)
    (h : k.signalBody semaphore = some k') :
    Counted semaphore ((k.semaphores semaphore).value+1) (W \ woken k k' W) k k' ∧
      Undisturbed (woken k k' W) k k' ∧ (woken k k' W).card ≤ 1 := by
  have hhi : (k.semaphores semaphore).value < maxInt := by
    by_contra hx
    exact signalBody_overflow hx h
  cases hp : (k.semaphores semaphore).list.pop with
  | none =>
    rw [signalBody_empty hhi hp] at h
    cases h
    have hwoken := MutexRun.woken_same (W := W) (setSemaphore_processes k semaphore
      { k.semaphores semaphore with value := (k.semaphores semaphore).value+1 })
    rw [hwoken,Finset.sdiff_empty]
    exact ⟨Counted.of_update (s := { k.semaphores semaphore with
      value := (k.semaphores semaphore).value+1 }) rfl rfl hl rfl rfl,Undisturbed.of_eq rfl rfl,
      Nat.zero_le _⟩
  | some x =>
    obtain ⟨w,l⟩ := x
    obtain ⟨hw,hl'⟩ := hl.pop_some hp
    have hk : ∃ s : Semaphore, k'.semaphores = Function.update k.semaphores semaphore s ∧
        s = { k.semaphores semaphore with value := (k.semaphores semaphore).value+1, list := l } ∧
        k'.processes = Processes.setThreadState k.processes w .ready ∧ k'.current = k.current ∧
        k'.mutexes = k.mutexes := by
      simp only [signalBody,unlockSemaphoreProcess,hp] at h
      rw [changeThreadState_real (by exact (hb w hw).1)] at h
      simp only [Option.map_some,Option.bind_some,increment,setSemaphore_semaphores_self,
        if_pos hhi] at h
      cases h
      refine ⟨_,?_,rfl,rfl,rfl,rfl⟩
      simp [setSemaphore]
    obtain ⟨s,hs,rfl,hproc,hcur,hmut⟩ := hk
    have hwoken := MutexRun.woken_single hw (fun v hv => (hb v hv).2) (hb w hw).1.isSome hproc
    rw [hwoken,Finset.sdiff_singleton_eq_erase]
    exact ⟨Counted.of_update hmut hs hl' rfl rfl,Undisturbed.of_set hproc hcur,
      le_of_eq (Finset.card_singleton w)⟩

end Kernel
end ComplexOS
