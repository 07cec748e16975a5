import ComplexOS.Kernel.MutexRuns
import ComplexOS.Kernel.Semaphore

/-! # Runs over one semaphore

Threads call `wait` and `signal` on one semaphore. Each call goes through the
semaphore's mutex, whose part of the state is a run over that mutex, so a switch may
fall between the three parts of a call. The counters are ghosts: a wait has started
when it has decremented the value, and has completed when it returns.
-/
namespace ComplexOS

inductive SemaphoreCall
  | wait | signal
  deriving DecidableEq, Repr

/-- Where a thread is in its call: in `mutexDown`, before the body, before the final
`mutexUp` of a call that goes on or of a wait that was queued, or BLOCKED in the yield. -/
inductive SemaphorePhase
  | outside
  | lock (call : SemaphoreCall)
  | body (call : SemaphoreCall)
  | leave (call : SemaphoreCall)
  | leaveQueued
  | asleep
  deriving DecidableEq, Repr

inductive SemaphoreStep
  | call (c : SemaphoreCall)
  | resume
  | body
  | mutexUp
  | dispatch (t : ThreadId)
  deriving DecidableEq, Repr

structure SemaphoreRun where
  lock : MutexRun
  phase : ThreadId → SemaphorePhase
  waiting : Finset ThreadId
  /-- Threads whose wait has started and has not completed. -/
  pending : Finset ThreadId
  waits : ℕ
  signals : ℕ
  completed : ℕ

namespace SemaphoreRun
variable (semaphore : ℤ) (s : SemaphoreRun)

def start (k : Kernel) : SemaphoreRun := ⟨MutexRun.start k,fun _ => .outside,∅,∅,0,0,0⟩

def kernel : Kernel := s.lock.kernel
def caller : ThreadId := s.lock.caller
def mutex : ℤ := (s.kernel.semaphores semaphore).mutex

def goTo (p : SemaphorePhase) : SemaphoreRun :=
  { s with phase := Function.update s.phase s.caller p }

def withLock (l : MutexRun) : SemaphoreRun := { s with lock := l }
def withKernel (k : Kernel) : SemaphoreRun := { s with lock := { s.lock with kernel := k } }

def complete : SemaphoreRun :=
  { s.goTo .outside with pending := s.pending.erase s.caller, completed := s.completed+1 }

def startWait : SemaphoreRun :=
  { s with pending := insert s.caller s.pending, waits := s.waits+1 }

def step : SemaphoreStep → Option SemaphoreRun
  | .call c =>
    if s.phase s.caller = .outside ∧ s.kernel.isValidSemaphore semaphore then
      (MutexRun.step (s.mutex semaphore) s.lock .mutexDown).map (fun l =>
        (s.goTo (if s.caller ∈ l.suspended then .lock c else .body c)).withLock l)
    else none
  | .resume =>
    match s.phase s.caller with
    | .lock c => (MutexRun.step (s.mutex semaphore) s.lock .resume).map (fun l =>
        (s.goTo (.body c)).withLock l)
    | .asleep =>
      if s.kernel.threadState s.caller = some .running then some s.complete else none
    | _ => none
  | .body =>
    if s.lock.Calls then
      match s.phase s.caller with
      | .body .wait =>
        if s.waiting.card < maxBlocked then
          match s.kernel.waitBody semaphore s.caller with
          | some (.returned,k) => some ((s.goTo (.leave .wait)).startWait.withKernel k)
          | some (.queued,k) => some { (s.goTo .leaveQueued).startWait.withKernel k with
              waiting := insert s.caller s.waiting }
          | _ => none
        else none
      | .body .signal =>
        (s.kernel.signalBody semaphore).map (fun k =>
          { (s.goTo (.leave .signal)).withKernel k with
            waiting := s.waiting \ woken s.kernel k s.waiting
            signals := s.signals+1 })
      | _ => none
    else none
  | .mutexUp =>
    (MutexRun.step (s.mutex semaphore) s.lock .mutexUp).bind (fun l =>
      match s.phase s.caller with
      | .leave .wait => some (s.complete.withLock l)
      | .leave .signal => some ((s.goTo .outside).withLock l)
      | .leaveQueued => some ((s.goTo .asleep).withLock l)
      | _ => none)
  | .dispatch t =>
    (MutexRun.step (s.mutex semaphore) s.lock (.dispatch t)).map s.withLock

structure StartsEmpty (v : ℤ) (k : Kernel) : Prop where
  valid : k.isValidSemaphore semaphore
  value : (k.semaphores semaphore).value = v
  list : (k.semaphores semaphore).list.Holds ∅
  lock : MutexRun.StartsUnlocked (k.semaphores semaphore).mutex k

/-- The value is what the counters say, and it is negative by the number of waiters. -/
structure Counts (v : ℤ) (list : Semaphore) (s : SemaphoreRun) : Prop where
  value : list.value = v+s.signals-s.waits
  waiting : (s.waiting.card : ℤ) = max 0 (-list.value)
  waits : s.waits = s.completed+s.pending.card

def SemaphorePhase.Pends (p : SemaphorePhase) : Prop :=
  p = .leave .wait ∨ p = .leaveQueued ∨ p = .asleep

def SemaphorePhase.Queued (p : SemaphorePhase) : Prop := p = .leaveQueued ∨ p = .asleep

structure Phases : Prop where
  suspended : ∀ t ∈ s.lock.suspended, ∃ c, s.phase t = .lock c
  queued : ∀ w ∈ s.waiting, SemaphorePhase.Queued (s.phase w)
  pending : ∀ t, t ∈ s.pending ↔ SemaphorePhase.Pends (s.phase t)

structure Ok (v : ℤ) : Prop where
  lock : MutexRun.Ok (s.mutex semaphore) s.lock
  valid : s.kernel.isValidSemaphore semaphore
  list : (s.kernel.semaphores semaphore).list.Holds s.waiting
  counts : Counts v (s.kernel.semaphores semaphore) s
  real : ∀ w ∈ s.waiting, Processes.Real s.kernel.processes w
  blocked : ∀ w ∈ s.waiting, s.kernel.threadState w = some .blocked
  phases : s.Phases

structure Moved (s s' : SemaphoreRun) : Prop where
  phase : ∀ t, t ≠ s.caller → s'.phase t = s.phase t
  suspended : ∀ t, t ≠ s.caller → t ∈ s'.lock.suspended → t ∈ s.lock.suspended
  waiting : ∀ t, t ≠ s.caller → t ∈ s'.waiting → t ∈ s.waiting
  pending : ∀ t, t ≠ s.caller → (t ∈ s'.pending ↔ t ∈ s.pending)
  ownSuspended : s.caller ∈ s'.lock.suspended → ∃ c, s'.phase s.caller = .lock c
  ownWaiting : s.caller ∈ s'.waiting → SemaphorePhase.Queued (s'.phase s.caller)
  ownPending : s.caller ∈ s'.pending ↔ SemaphorePhase.Pends (s'.phase s.caller)

variable {semaphore s} {v : ℤ} {p : SemaphorePhase} {t : ThreadId} {l : MutexRun} {k : Kernel}

@[simp] theorem goTo_phase_self : (s.goTo p).phase s.caller = p := by simp [goTo]
@[simp] theorem goTo_phase_of_ne (h : t ≠ s.caller) : (s.goTo p).phase t = s.phase t := by
  simp [goTo,h]
@[simp] theorem goTo_caller : (s.goTo p).caller = s.caller := rfl
@[simp] theorem goTo_pending : (s.goTo p).pending = s.pending := rfl
@[simp] theorem withLock_phase : (s.withLock l).phase = s.phase := rfl
@[simp] theorem withLock_pending : (s.withLock l).pending = s.pending := rfl
@[simp] theorem withKernel_phase : (s.withKernel k).phase = s.phase := rfl
@[simp] theorem withKernel_pending : (s.withKernel k).pending = s.pending := rfl
@[simp] theorem startWait_phase : s.startWait.phase = s.phase := rfl
@[simp] theorem startWait_caller : s.startWait.caller = s.caller := rfl
@[simp] theorem startWait_pending : s.startWait.pending = insert s.caller s.pending := rfl
@[simp] theorem complete_phase : s.complete.phase = (s.goTo .outside).phase := rfl
@[simp] theorem complete_pending : s.complete.pending = s.pending.erase s.caller := rfl

theorem Phases.moved {s' : SemaphoreRun} (h : s.Phases) (hm : Moved s s') : s'.Phases := by
  refine ⟨fun t ht => ?_,fun t ht => ?_,fun t => ?_⟩ <;> by_cases hc : t = s.caller
  · exact hc ▸ hm.ownSuspended (hc ▸ ht)
  · exact hm.phase t hc ▸ h.suspended t (hm.suspended t hc ht)
  · exact hc ▸ hm.ownWaiting (hc ▸ ht)
  · exact hm.phase t hc ▸ h.queued t (hm.waiting t hc ht)
  · exact hc ▸ hm.ownPending
  · rw [hm.phase t hc,hm.pending t hc]
    exact h.pending t

theorem start_ok {k : Kernel} (h : StartsEmpty semaphore v k) (hv : 0 ≤ v) :
    Ok semaphore (start k) v := by
  refine ⟨MutexRun.start_ok h.lock,h.valid,h.list,⟨?_,?_,rfl⟩,by simp [start],by simp [start],
    by simp [start,MutexRun.start],by simp [start],by simp [start,SemaphorePhase.Pends]⟩
  · rw [kernel,start,MutexRun.start]
    simp [h.value]
  · rw [kernel,start,MutexRun.start]
    simp [h.value,hv]

theorem Ok.caller_not_waiting (hs : Ok semaphore s v)
    (h : ¬ SemaphorePhase.Queued (s.phase s.caller)) : s.caller ∉ s.waiting :=
  fun hw => h (hs.phases.queued _ hw)

/-- No thread is queued on the semaphore and on its mutex at once. -/
theorem Ok.not_suspended (hs : Ok semaphore s v) {w : ThreadId} (hw : w ∈ s.waiting) :
    w ∉ s.lock.suspended := by
  intro h
  obtain ⟨c,hc⟩ := hs.phases.suspended w h
  rcases hs.phases.queued w hw with hq | hq <;> rw [hc] at hq <;> cases hq

/-- Steps of the mutex part: the semaphore's table entry and its waiters stay. -/
theorem Ok.lockStep {s' : SemaphoreRun} {changed : Finset ThreadId} (hs : Ok semaphore s v)
    (hl : MutexRun.Ok (s.mutex semaphore) s'.lock) (hf : Kernel.Frame changed s.kernel s'.kernel)
    (hw : s'.waiting = s.waiting) (hch : ∀ w ∈ s.waiting, w ∉ changed) (hm : Moved s s')
    (hc : Counts v (s.kernel.semaphores semaphore) s') : Ok semaphore s' v := by
  have hsem := congrFun hf.semaphores semaphore
  refine ⟨?_,?_,by rw [hsem,hw]; exact hs.list,by rw [hsem]; exact hc,?_,?_,hs.phases.moved hm⟩
  · rw [mutex,hsem]
    exact hl
  · exact ⟨hs.valid.1,hs.valid.2.1,hsem ▸ hs.valid.2.2⟩
  · exact fun w h => (hf.real w).mpr (hs.real w (hw ▸ h))
  · exact fun w h => (hf.state w (hch w (hw ▸ h))).trans (hs.blocked w (hw ▸ h))

theorem call_ok {c : SemaphoreCall} {s' : SemaphoreRun} (hs : Ok semaphore s v)
    (h : step semaphore s (.call c) = some s') : Ok semaphore s' v := by
  rw [step] at h
  split at h
  · rename_i hg
    obtain ⟨l,hl,rfl⟩ := Option.map_eq_some_iff.mp h
    obtain ⟨hlok,hcalls,hframe,hsusp⟩ := MutexRun.mutexDown_inv hs.lock hl
    have hnw := hs.caller_not_waiting (by simp [hg.1,SemaphorePhase.Queued])
    refine hs.lockStep hlok hframe rfl (fun w hw => ?_) ⟨?_,?_,?_,?_,?_,?_,?_⟩
      ⟨hs.counts.value,hs.counts.waiting,hs.counts.waits⟩
    · rw [Finset.mem_singleton]
      rintro rfl
      exact hnw hw
    · exact fun t ht => by simp [ht]
    · intro t ht hm
      rcases hsusp with he | he
      · exact he ▸ hm
      · exact Finset.mem_of_mem_insert_of_ne (he ▸ hm) ht
    · exact fun _ _ => id
    · exact fun _ _ => Iff.rfl
    · intro hm
      exact ⟨c,by simpa [withLock] using hm⟩
    · exact fun hw => (hnw hw).elim
    · rw [show (s.caller ∈ ((s.goTo _).withLock l).pending ↔ s.caller ∈ s.pending) from Iff.rfl,
        hs.phases.pending,hg.1]
      simp only [withLock_phase,goTo_phase_self]
      split <;> simp [SemaphorePhase.Pends]
  · cases h

/-- A wait returns, from the yield or past its last `mutexUp`. -/
theorem Ok.complete {l : MutexRun} {changed : Finset ThreadId} (hs : Ok semaphore s v)
    (hl : MutexRun.Ok (s.mutex semaphore) l) (hf : Kernel.Frame changed s.kernel l.kernel)
    (hch : ∀ w ∈ s.waiting, w ∉ changed) (hsub : l.suspended ⊆ s.lock.suspended)
    (hp : SemaphorePhase.Pends (s.phase s.caller)) (hnw : s.caller ∉ s.waiting) :
    Ok semaphore (s.complete.withLock l) v := by
  have hmem := (hs.phases.pending s.caller).mpr hp
  refine hs.lockStep hl hf rfl hch
    ⟨fun t ht => by simp [ht],fun t _ hm => hsub hm,
      fun _ _ => id,fun t ht => by simp [ht],?_,
      fun hw => (hnw hw).elim,by simp [SemaphorePhase.Pends]⟩
    ⟨hs.counts.value,hs.counts.waiting,?_⟩
  · intro hm
    obtain ⟨c,hc⟩ := hs.phases.suspended _ (hsub hm)
    rcases hp with hp | hp | hp <;> rw [hc] at hp <;> cases hp
  · have := Finset.card_erase_add_one hmem
    have := hs.counts.waits
    show s.waits = s.completed+1+(s.pending.erase s.caller).card
    omega

theorem resume_ok {s' : SemaphoreRun} (hs : Ok semaphore s v)
    (h : step semaphore s .resume = some s') : Ok semaphore s' v := by
  rw [step] at h
  split at h
  · rename_i c hc
    obtain ⟨l,hl,rfl⟩ := Option.map_eq_some_iff.mp h
    have hlok := MutexRun.step_ok hs.lock hl
    rw [MutexRun.step] at hl
    split at hl
    · cases hl
      have hframe : Kernel.Frame ∅ s.kernel s.kernel := Kernel.Frame.of_eq rfl rfl rfl
      refine hs.lockStep hlok hframe rfl (by simp)
        ⟨?_,?_,fun _ _ => id,fun _ _ => Iff.rfl,?_,?_,?_⟩
        ⟨hs.counts.value,hs.counts.waiting,hs.counts.waits⟩
      · exact fun t ht => by simp [ht]
      · exact fun t _ hm => Finset.mem_of_mem_erase hm
      · exact fun hm => ((Finset.mem_erase.mp hm).1 rfl).elim
      · exact fun hw => (hs.caller_not_waiting (by simp [hc,SemaphorePhase.Queued]) hw).elim
      · simp [hs.phases.pending,hc,SemaphorePhase.Pends]
    · cases hl
  · rename_i hc
    split at h
    · rename_i hr
      cases h
      have hframe : Kernel.Frame ∅ s.kernel s.kernel := Kernel.Frame.of_eq rfl rfl rfl
      refine hs.complete hs.lock hframe (by simp)
        subset_rfl (by simp [hc,SemaphorePhase.Pends]) ?_
      -- a thread still queued would be BLOCKED
      intro hw
      have hb := hs.blocked _ hw
      rw [hr] at hb
      cases hb
    · cases h
  · cases h

theorem mutexUp_ok {s' : SemaphoreRun} (hs : Ok semaphore s v)
    (h : step semaphore s .mutexUp = some s') : Ok semaphore s' v := by
  obtain ⟨l,hl,h⟩ := Option.bind_eq_some_iff.mp h
  obtain ⟨hlok,hcalls,hframe,hsusp⟩ := MutexRun.mutexUp_inv hs.lock hl
  have hch : ∀ w ∈ s.waiting, w ∉ s.lock.waiting :=
    fun w hw hm => hs.not_suspended hw (hs.lock.suspended hm)
  have hown : s.caller ∉ l.suspended := hsusp ▸ hcalls.2
  split at h <;> rename_i hc
  · cases h
    exact hs.complete hlok hframe hch (hsusp ▸ subset_rfl) (by simp [hc,SemaphorePhase.Pends])
      (hs.caller_not_waiting (by simp [hc,SemaphorePhase.Queued]))
  · cases h
    refine hs.lockStep hlok hframe rfl hch
      ⟨fun t ht => by simp [ht],fun t _ hm => hsusp ▸ hm,fun _ _ => id,
        fun _ _ => Iff.rfl,fun hm => (hown hm).elim,?_,?_⟩
      ⟨hs.counts.value,hs.counts.waiting,hs.counts.waits⟩
    · exact fun hw => (hs.caller_not_waiting (by simp [hc,SemaphorePhase.Queued]) hw).elim
    · simp [hs.phases.pending,hc,SemaphorePhase.Pends]
  · cases h
    refine hs.lockStep hlok hframe rfl hch
      ⟨fun t ht => by simp [ht],fun t _ hm => hsusp ▸ hm,fun _ _ => id,
        fun _ _ => Iff.rfl,fun hm => (hown hm).elim,?_,?_⟩
      ⟨hs.counts.value,hs.counts.waiting,hs.counts.waits⟩
    · simp [SemaphorePhase.Queued]
    · simp [hs.phases.pending,hc,SemaphorePhase.Pends]
  · cases h

theorem dispatch_ok {t : ThreadId} {s' : SemaphoreRun} (hs : Ok semaphore s v)
    (h : step semaphore s (.dispatch t) = some s') : Ok semaphore s' v := by
  obtain ⟨l,hl,rfl⟩ := Option.map_eq_some_iff.mp h
  have hlok := MutexRun.step_ok hs.lock hl
  rw [MutexRun.step] at hl
  split at hl
  · rename_i hr
    cases hl
    have hsome : (s.lock.kernel.threadState t).isSome := by rw [hr]; rfl
    exact ⟨hlok,hs.valid,hs.list,⟨hs.counts.value,hs.counts.waiting,hs.counts.waits⟩,
      fun w hw => (Kernel.real_dispatch hsome).mpr (hs.real w hw),
      fun w hw => Kernel.dispatch_blocked hr (hs.blocked w hw),
      ⟨hs.phases.suspended,hs.phases.queued,hs.phases.pending⟩⟩
  · cases hl

/-- Steps of the semaphore part: the mutex and its waiters stay. -/
theorem Ok.bodyStep {s' : SemaphoreRun} {k : Kernel} {x : ℤ} {list : BlockedList}
    (hs : Ok semaphore s v) (hk : s'.lock = { s.lock with kernel := k })
    (hmut : k.mutexes = s.kernel.mutexes) (hsem : k.semaphores semaphore =
      { s.kernel.semaphores semaphore with value := x, list := list })
    (hlist : list.Holds s'.waiting) (hc : Counts v (k.semaphores semaphore) s')
    (hst : ∀ w ∈ s.lock.waiting, k.threadState w = s.kernel.threadState w)
    (hreal : ∀ w, Processes.Real k.processes w ↔ Processes.Real s.kernel.processes w)
    (hw : ∀ w ∈ s'.waiting, Processes.Real k.processes w ∧ k.threadState w = some .blocked)
    (hm : Moved s s') : Ok semaphore s' v := by
  have hkk : s'.kernel = k := by rw [kernel,hk]
  refine ⟨?_,⟨hs.valid.1,hs.valid.2.1,?_⟩,?_,by rw [hkk]; exact hc,
    fun w h => hkk ▸ (hw w h).1,fun w h => hkk ▸ (hw w h).2,hs.phases.moved hm⟩
  · rw [mutex,hkk,hsem,hk]
    exact hs.lock.reframe (congrFun hmut _) hst hreal
  · rw [hkk,hsem]
    exact hs.valid.2.2
  · rw [hkk,hsem]
    exact hlist

/-- The body of a wait: one more wait has started, and it is queued unless the value
was positive. -/
theorem waitBody_ok {s' : SemaphoreRun} (hs : Ok semaphore s v) (hcalls : s.lock.Calls)
    (hphase : s.phase s.caller = .body .wait)
    (h : step semaphore s .body = some s') : Ok semaphore s' v := by
  have hnw := hs.caller_not_waiting (by simp [hphase,SemaphorePhase.Queued])
  have hnp : s.caller ∉ s.pending := by simp [hs.phases.pending,hphase,SemaphorePhase.Pends]
  have hns : s.caller ∉ s.lock.suspended := hcalls.2
  have hcard := hs.list.card_le
  obtain ⟨hval,hwait,hwaits⟩ := hs.counts
  have hlo : -maxInt-1 < (s.kernel.semaphores semaphore).value := by
    simp only [maxBlocked,maxInt] at *
    omega
  have hins := Finset.card_insert_of_notMem hnp
  rw [step,if_pos hcalls,hphase] at h
  simp only at h
  split at h
  · rename_i hlt
    by_cases hpos : 0 < (s.kernel.semaphores semaphore).value
    · rw [Kernel.waitBody_free hlo hpos] at h
      cases h
      refine hs.bodyStep rfl rfl (Kernel.setSemaphore_semaphores_self _ _ _) hs.list ⟨?_,?_,?_⟩
        (fun _ _ => rfl) (fun _ => Iff.rfl) (fun w hw => ⟨hs.real w hw,hs.blocked w hw⟩)
        ⟨fun t ht => by simp [ht],fun _ _ => id,fun _ _ => id,
          fun t ht => by simp [ht],fun hm => (hns hm).elim,
          fun hm => (hnw hm).elim,by simp [SemaphorePhase.Pends]⟩
      · simp only [Kernel.setSemaphore_semaphores_self]
        show _ = v+s.signals-((s.waits+1 : ℕ) : ℤ)
        push_cast
        omega
      · simp only [Kernel.setSemaphore_semaphores_self]
        show (s.waiting.card : ℤ) = _
        omega
      · show s.waits+1 = s.completed+(insert s.caller s.pending).card
        omega
    · obtain ⟨l,hl,hlist⟩ := hs.list.add hnw (MutexRun.used_of_real hcalls.1) hlt
      obtain ⟨k,hk,hsem,hp,hcur,hmut⟩ := Kernel.waitBody_queued hlo (by omega) hcalls.1 hl
      have hk' : s.kernel.waitBody semaphore s.caller = some (.queued,k) := hk
      rw [hk'] at h
      cases h
      have hne : ∀ w, w ≠ s.caller → k.threadState w = s.kernel.threadState w := by
        exact fun w hw => Kernel.threadState_of_set_ne hp hw
      have hcw := Finset.card_insert_of_notMem hnw
      refine hs.bodyStep rfl hmut hsem hlist ⟨?_,?_,?_⟩
        (fun w hw => hne w (fun he => hns (he ▸ hs.lock.suspended hw)))
        (fun w => by rw [hp]; exact Processes.real_set) (fun w hw => ?_)
        ⟨fun t ht => by simp [ht],fun _ _ => id,
          fun t ht hm => Finset.mem_of_mem_insert_of_ne hm ht,
          fun t ht => by simp [ht],fun hm => (hns hm).elim,
          fun _ => by simp [SemaphorePhase.Queued],
          by simp [SemaphorePhase.Pends]⟩
      · rw [hsem]
        show _ = v+s.signals-((s.waits+1 : ℕ) : ℤ)
        push_cast
        omega
      · rw [hsem]
        show ((insert s.caller s.waiting).card : ℤ) = _
        rw [hcw]
        push_cast
        omega
      · show s.waits+1 = s.completed+(insert s.caller s.pending).card
        omega
      · rw [hp]
        refine ⟨Processes.real_set.mpr ?_,?_⟩
        · rcases Finset.mem_insert.mp hw with rfl | hw
          · exact hcalls.1
          · exact hs.real w hw
        · by_cases he : w = s.caller
          · rw [he]
            exact Kernel.threadState_of_set hp hcalls.1.isSome
          · rw [hne w he]
            exact hs.blocked w (Finset.mem_of_mem_insert_of_ne hw he)
  · cases h

/-- The body of a signal: it wakes a waiter exactly if the value is negative, which
the increment then makes up for. -/
theorem signalBody_ok {s' : SemaphoreRun} (hs : Ok semaphore s v) (hcalls : s.lock.Calls)
    (hphase : s.phase s.caller = .body .signal)
    (h : step semaphore s .body = some s') : Ok semaphore s' v := by
  have hnw := hs.caller_not_waiting (by simp [hphase,SemaphorePhase.Queued])
  have hnp : s.caller ∉ s.pending := by simp [hs.phases.pending,hphase,SemaphorePhase.Pends]
  have hns : s.caller ∉ s.lock.suspended := hcalls.2
  obtain ⟨hval,hwait,hwaits⟩ := hs.counts
  rw [step,if_pos hcalls,hphase] at h
  simp only at h
  obtain ⟨k,hk,rfl⟩ := Option.map_eq_some_iff.mp h
  by_cases hhi : (s.kernel.semaphores semaphore).value < maxInt
  swap
  · exact (Kernel.signalBody_overflow hhi hk).elim
  rcases s.waiting.eq_empty_or_nonempty with he | hne
  · rw [Kernel.signalBody_empty hhi (he ▸ hs.list).pop_empty] at hk
    cases hk
    have hwk : ∀ k, woken s.kernel k s.waiting = ∅ := fun k => by rw [he]; rfl
    refine hs.bodyStep rfl rfl (Kernel.setSemaphore_semaphores_self _ _ _) ?_ ⟨?_,?_,hwaits⟩
      (fun _ _ => rfl) (fun _ => Iff.rfl) (fun w hw => ?_)
      ⟨fun t ht => by simp [ht],fun _ _ => id,fun t _ ht => (Finset.mem_sdiff.mp ht).1,
        fun _ _ => Iff.rfl,fun hm => (hns hm).elim,fun hw => (hnw (Finset.mem_sdiff.mp hw).1).elim,
        by simp [hnp,SemaphorePhase.Pends]⟩
    · simpa [hwk] using hs.list
    · simp only [Kernel.setSemaphore_semaphores_self]
      show _ = v+((s.signals+1 : ℕ) : ℤ)-s.waits
      push_cast
      omega
    · simp only [Kernel.setSemaphore_semaphores_self]
      show ((s.waiting \ woken s.kernel _ s.waiting).card : ℤ) = _
      rw [hwk,Finset.sdiff_empty]
      have hzero : s.waiting.card = 0 := by rw [he]; rfl
      omega
    · simp [he] at hw
  · obtain ⟨w,hw,l,hpop,hlist⟩ := hs.list.pop hne
    obtain ⟨k',hk',hsem,hp,hcur,hmut⟩ := Kernel.signalBody_wake hhi (hs.real w hw) hpop
    rw [hk'] at hk
    cases hk
    have hsome : (s.kernel.threadState w).isSome := by rw [hs.blocked w hw]; rfl
    have hwk := MutexRun.woken_single hw hs.blocked hsome hp
    have hcard := Finset.card_erase_add_one hw
    refine hs.bodyStep rfl hmut hsem ?_ ⟨?_,?_,hwaits⟩
      (fun u hu => Kernel.threadState_of_set_ne hp
        (fun he => hs.not_suspended hw (he ▸ hs.lock.suspended hu)))
      (fun u => by rw [hp]; exact Processes.real_set) (fun u hu => ?_)
      ⟨fun t ht => by simp [ht],fun _ _ => id,fun t _ ht => (Finset.mem_sdiff.mp ht).1,
        fun _ _ => Iff.rfl,fun hm => (hns hm).elim,fun hw => (hnw (Finset.mem_sdiff.mp hw).1).elim,
        by simp [hnp,SemaphorePhase.Pends]⟩
    · simpa only [hwk,Finset.sdiff_singleton_eq_erase] using hlist
    · rw [hsem]
      show _ = v+((s.signals+1 : ℕ) : ℤ)-s.waits
      push_cast
      omega
    · rw [hsem]
      show ((s.waiting \ woken s.kernel k s.waiting).card : ℤ) = _
      rw [hwk,Finset.sdiff_singleton_eq_erase]
      simp only
      omega
    · simp only [hwk,Finset.sdiff_singleton_eq_erase] at hu
      obtain ⟨hne,hu⟩ := Finset.mem_erase.mp hu
      rw [hp,Kernel.threadState_of_set_ne hp hne]
      exact ⟨Processes.real_set.mpr (hs.real u hu),hs.blocked u hu⟩

theorem body_ok {s' : SemaphoreRun} (hs : Ok semaphore s v)
    (h : step semaphore s .body = some s') : Ok semaphore s' v := by
  by_cases hcalls : s.lock.Calls
  · cases hp : s.phase s.caller with
    | body c =>
      cases c with
      | wait => exact waitBody_ok hs hcalls hp h
      | signal => exact signalBody_ok hs hcalls hp h
    | _ => simp [step,hcalls,hp] at h
  · rw [step,if_neg hcalls] at h
    cases h

theorem step_ok {l : SemaphoreStep} {s' : SemaphoreRun} (hs : Ok semaphore s v)
    (h : step semaphore s l = some s') : Ok semaphore s' v := by
  cases l with
  | call c => exact call_ok hs h
  | resume => exact resume_ok hs h
  | body => exact body_ok hs h
  | mutexUp => exact mutexUp_ok hs h
  | dispatch t => exact dispatch_ok hs h

/-- The waits that were not queued or were woken never outrun the permits. -/
theorem Ok.completed_le (hs : Ok semaphore s v) : (s.completed : ℤ) ≤ v+s.signals := by
  have hsub : s.waiting ⊆ s.pending :=
    fun w hw => (hs.phases.pending w).mpr (Or.inr (hs.phases.queued w hw))
  have hle := Finset.card_le_card hsub
  obtain ⟨hval,hwait,hwaits⟩ := hs.counts
  omega

/-- The counting-semaphore law, in every state of every run. -/
theorem counting_law {k : Kernel} (hk : StartsEmpty semaphore v k) (hv : 0 ≤ v)
    {ls : List SemaphoreStep} (hr : Runs.run (step semaphore) (start k) ls = some s) :
    (s.kernel.semaphores semaphore).value = v+s.signals-s.waits ∧
      (s.kernel.semaphores semaphore).list.blockedQuantity =
        max 0 (-(s.kernel.semaphores semaphore).value) ∧
      ((SlotTable.occupied ThreadId.used maxBlocked
        (s.kernel.semaphores semaphore).list.blocked).card : ℤ) =
        max 0 (-(s.kernel.semaphores semaphore).value) ∧
      (∀ i j, i < maxBlocked → j < maxBlocked →
        ((s.kernel.semaphores semaphore).list.blocked i).used →
        (s.kernel.semaphores semaphore).list.blocked i =
          (s.kernel.semaphores semaphore).list.blocked j → i = j) ∧
      (s.completed : ℤ) ≤ v+s.signals := by
  have hs : Ok semaphore s v :=
    Runs.invariant (fun _ _ _ hs h => step_ok hs h) (start_ok hk hv) hr
  refine ⟨hs.counts.value,?_,?_,hs.list.once,hs.completed_le⟩
  · rw [hs.list.quantity,hs.counts.waiting]
  · rw [hs.list.card_occupied,hs.counts.waiting]

def clearedSemaphoreKernel : Kernel :=
  (MutexRun.clearedKernel.createMutex 1 [109] 0).2.setSemaphore 0
    ⟨⟨1,0⟩,fun _ => 0,BlockedList.empty,0,1⟩

theorem counting_law_woken :
    ∃ s, Runs.run (step 0) (start clearedSemaphoreKernel)
      [.call .wait,.body,.mutexUp,.dispatch ⟨2,0⟩,.call .signal,.body,.mutexUp,
        .dispatch ⟨1,0⟩,.resume] = some s ∧ (s.completed : ℤ) ≤ 0+s.signals := by
  have hk : StartsEmpty 0 0 clearedSemaphoreKernel :=
    ⟨by decide,rfl,BlockedList.empty_holds,by decide,rfl,Mutex.clear_list _⟩
  have hs : (Runs.run (step 0) (start clearedSemaphoreKernel)
      [.call .wait,.body,.mutexUp,.dispatch ⟨2,0⟩,.call .signal,.body,.mutexUp,
        .dispatch ⟨1,0⟩,.resume]).isSome := by decide
  obtain ⟨s,hs⟩ := Option.isSome_iff_exists.mp hs
  exact ⟨s,hs,(counting_law hk le_rfl hs).2.2.2.2⟩

end SemaphoreRun
end ComplexOS
