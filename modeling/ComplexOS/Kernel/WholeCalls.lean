import ComplexOS.Kernel.ObjectRuns

/-! # Calls that nobody interrupts

Every run of counters and locks is one of the kernel's semaphores and mutexes: each
operation is a call that is made by a READY thread while nobody is in a call, and that comes
back before the next one begins.
-/
namespace ComplexOS

open Kernel

namespace MutexRun
variable {mutex : ℤ} {s : MutexRun}

/-- Nobody is in a call. -/
structure Idle (mutex : ℤ) (s : MutexRun) : Prop where
  ok : Ok mutex s
  suspended : s.suspended = ∅
  returned : s.returned = s.holders

theorem Idle.waiting (h : Idle mutex s) : s.waiting = ∅ :=
  Finset.subset_empty.mp (h.suspended ▸ h.ok.suspended)

theorem Idle.calls (h : Idle mutex s) (hr : Processes.Real s.kernel.processes s.caller) : s.Calls :=
  ⟨hr,by simp [h.suspended]⟩

theorem Idle.mutexDown (h : Idle mutex s) (hr : Processes.Real s.kernel.processes s.caller)
    (hf : s.holders = ∅) : ∃ s', step mutex s .mutexDown = some s' ∧ Idle mutex s' ∧
      s'.holders = {s.caller} ∧ s.shows mutex .mutexDown = some (.down mutex) ∧
      Frame ∅ s.kernel s'.kernel := by
  have hval : (s.kernel.mutexes mutex).value = unlocked := by
    rcases h.ok.owned with ⟨hval,-⟩ | ⟨-,hh⟩
    · exact hval
    · rw [hf] at hh
      exact absurd hh.symm (Finset.singleton_ne_empty _)
  have hroom : s.waiting.card < maxBlocked := by
    rw [h.waiting]
    decide
  obtain ⟨k,hk,-,hp,hcur,hsem⟩ := Kernel.mutexDown_free (t := s.caller) h.ok.valid
    (by rw [hval]; decide)
  have hs : step mutex s .mutexDown = some { s with
      kernel := k
      holders := insert s.caller s.holders
      returned := insert s.caller s.returned } := by
    rw [step,if_pos ⟨h.calls hr,hroom⟩,hk]
  refine ⟨_,hs,⟨step_ok h.ok hs,h.suspended,congrArg (insert s.caller) h.returned⟩,?_,?_,
    Frame.of_eq hp hcur hsem⟩
  · show insert s.caller s.holders = _
    rw [hf]
    rfl
  · rw [shows,if_neg (by rw [hval]; decide)]

theorem Idle.mutexUp (h : Idle mutex s) (hr : Processes.Real s.kernel.processes s.caller) :
    ∃ s', step mutex s .mutexUp = some s' ∧ Idle mutex s' ∧
      s'.holders = s.holders.erase s.caller ∧ Frame ∅ s.kernel s'.kernel := by
  obtain ⟨s',hs,hok,hf,hsus⟩ := mutexUp_step h.ok (h.calls hr)
  rw [h.waiting] at hf
  have hs' := hs
  rw [step,if_pos (h.calls hr)] at hs'
  obtain ⟨k,-,rfl⟩ := Option.map_eq_some_iff.mp hs'
  have hwoken : woken s.kernel k s.waiting = ∅ := by
    rw [h.waiting]
    rfl
  have hholders : (s.afterUp k).holders = s.holders.erase s.caller := by
    simp only [afterUp,hwoken,Finset.union_empty]
  refine ⟨_,hs,⟨hok,hsus.trans h.suspended,?_⟩,hholders,hf⟩
  exact (congrArg (·.erase s.caller) h.returned).trans hholders.symm

end MutexRun

namespace SemaphoreRun
variable {semaphore v : ℤ} {s : SemaphoreRun} {c : SemaphoreCall}

structure Idle (semaphore v : ℤ) (s : SemaphoreRun) : Prop where
  ok : Ok semaphore s v
  holders : s.lock.holders = ∅
  outside : ∀ t, s.phase t = .outside

theorem Idle.waiting (h : Idle semaphore v s) : s.waiting = ∅ := by
  refine Finset.eq_empty_of_forall_notMem (fun w hw => ?_)
  exact h.ok.waiting_inside hw (h.outside w)

theorem Idle.lock (h : Idle semaphore v s) : MutexRun.Idle (s.mutex semaphore) s.lock := by
  refine ⟨h.ok.lock,?_,?_⟩
  · exact Finset.eq_empty_of_forall_notMem (fun w hw => h.ok.suspended_inside hw (h.outside w))
  · rw [h.holders]
    exact Finset.subset_empty.mp (h.holders ▸ h.ok.lock.returned)

def Granted (semaphore : ℤ) (s : SemaphoreRun) : SemaphoreCall → Prop
  | .wait => 0 < (s.kernel.semaphores semaphore).value
  | .signal => (s.kernel.semaphores semaphore).value < maxInt

theorem Idle.call_through (h : Idle semaphore v s)
    (hr : Processes.Real s.kernel.processes s.caller) :
    ∃ l, step semaphore s (.call c) = some ((s.goTo (.body c)).withLock l) ∧
      MutexRun.Idle (s.mutex semaphore) l ∧ l.holders = {s.caller} ∧ Frame ∅ s.kernel l.kernel := by
  obtain ⟨l,hl,hidle,hh,-,hf⟩ := h.lock.mutexDown hr h.holders
  have hsus : s.caller ∉ l.suspended := by simp [hidle.suspended]
  refine ⟨l,?_,hidle,hh,hf⟩
  rw [step,if_pos ⟨h.outside _,h.ok.valid⟩]
  exact Option.map_eq_some_iff.mpr ⟨l,hl,by rw [if_neg hsus]⟩

theorem body_through {r : SemaphoreRun} (hok : Ok semaphore r v) (hc : r.lock.Calls)
    (hph : r.phase r.caller = .body c) (hw : r.waiting = ∅) (hg : Granted semaphore r c) :
    ∃ k r', step semaphore r .body = some r' ∧ r'.phase = (r.goTo (.leave c)).phase ∧
      r'.lock = { r.lock with kernel := k } ∧ Undisturbed ∅ r.kernel k := by
  cases c with
  | wait =>
    have hlo : -maxInt-1 < (r.kernel.semaphores semaphore).value :=
      (by decide : -maxInt-1 < 0).trans hg
    have hroom : r.waiting.card < maxBlocked := by
      rw [hw]
      decide
    have hs : step semaphore r .body = some ((r.goTo (.leave .wait)).startWait.withKernel
        (r.kernel.setSemaphore semaphore { r.kernel.semaphores semaphore with
          value := (r.kernel.semaphores semaphore).value-1 })) := by
      rw [step,if_pos hc,hph]
      simp only [if_pos hroom,waitBody_free hlo hg]
    exact ⟨_,_,hs,rfl,rfl,Undisturbed.of_eq rfl rfl⟩
  | signal =>
    have hk := signalBody_empty hg (hw ▸ hok.list).pop_empty
    set k := r.kernel.setSemaphore semaphore _
    have hs : step semaphore r .body = some { (r.goTo (.leave .signal)).withKernel k with
        waiting := r.waiting \ woken r.kernel k r.waiting
        signals := r.signals+1 } := by
      rw [step,if_pos hc,hph]
      exact Option.map_eq_some_iff.mpr ⟨_,hk,rfl⟩
    exact ⟨_,_,hs,rfl,rfl,Undisturbed.of_eq rfl rfl⟩

theorem mutexUp_through {r : SemaphoreRun} (hl : MutexRun.Idle (r.mutex semaphore) r.lock)
    (hr : Processes.Real r.kernel.processes r.caller) (hph : r.phase r.caller = .leave c)
    (hh : r.lock.holders = {r.caller}) :
    ∃ r', step semaphore r .mutexUp = some r' ∧ r'.phase = (r.goTo .outside).phase ∧
      r'.lock.holders = ∅ ∧ Frame ∅ r.kernel r'.kernel := by
  obtain ⟨l,hl,-,hholders,hf⟩ := hl.mutexUp hr
  have hnone : l.holders = ∅ := by
    rw [hholders,hh]
    exact Finset.erase_singleton _
  cases c with
  | wait =>
    exact ⟨r.complete.withLock l,Option.bind_eq_some_iff.mpr ⟨l,hl,by rw [hph]⟩,rfl,hnone,hf⟩
  | signal =>
    exact ⟨(r.goTo .outside).withLock l,Option.bind_eq_some_iff.mpr ⟨l,hl,by rw [hph]⟩,rfl,hnone,hf⟩

structure Through (semaphore v : ℤ) (c : SemaphoreCall) (s r₁ r₂ r₃ : SemaphoreRun) : Prop where
  call : step semaphore s (.call c) = some r₁
  body : step semaphore r₁ .body = some r₂
  mutexUp : step semaphore r₂ .mutexUp = some r₃
  caller₁ : r₁.caller = s.caller
  caller₂ : r₂.caller = s.caller
  phase₁ : r₁.phase s.caller = .body c
  phase₂ : r₂.phase s.caller = .leave c
  kernel : Undisturbed ∅ s.kernel r₃.kernel
  idle : Idle semaphore v r₃

theorem Idle.through (h : Idle semaphore v s) (hr : Processes.Real s.kernel.processes s.caller)
    (hg : Granted semaphore s c) : ∃ r₁ r₂ r₃, Through semaphore v c s r₁ r₂ r₃ := by
  obtain ⟨l,hcall,hidle₁,hh₁,hf₁⟩ := h.call_through (c := c) hr
  have hok₁ := step_ok h.ok hcall
  set r₁ := (s.goTo (.body c)).withLock l
  have hcaller₁ : r₁.caller = s.caller := hf₁.caller
  have hph₁ : r₁.phase s.caller = .body c := goTo_phase_self
  have hreal₁ : Processes.Real r₁.kernel.processes r₁.caller := by
    rw [hcaller₁]
    exact (hf₁.real _).mpr hr
  have hg₁ : Granted semaphore r₁ c := by
    have hsem : r₁.kernel.semaphores = s.kernel.semaphores := hf₁.semaphores
    cases c <;> simpa only [Granted,hsem] using hg
  obtain ⟨k,r₂,hbody,hph,hlock,hk⟩ := body_through (c := c) hok₁ (hidle₁.calls hreal₁)
    (by rw [hcaller₁]; exact hph₁) h.waiting hg₁
  have hok₂ := step_ok hok₁ hbody
  have hk₂ : Undisturbed ∅ s.kernel r₂.kernel := by
    rw [show r₂.kernel = k from congrArg MutexRun.kernel hlock]
    exact ⟨hk.caller.trans hf₁.caller,fun t ht => (hk.state t ht).trans (hf₁.state t ht),
      fun t => (hk.real t).trans (hf₁.real t)⟩
  have hcaller₂ : r₂.caller = s.caller := hk₂.caller
  have hph₂ : r₂.phase s.caller = .leave c := by
    rw [hph,← hcaller₁]
    exact goTo_phase_self
  have hidle₂ : MutexRun.Idle (r₂.mutex semaphore) r₂.lock := by
    refine ⟨hok₂.lock,?_,?_⟩ <;> rw [hlock]
    · exact hidle₁.suspended
    · exact hidle₁.returned
  have hh₂ : r₂.lock.holders = {r₂.caller} := by
    rw [hlock,hcaller₂]
    exact hh₁
  obtain ⟨r₃,hup,hph₃,hh₃,hf₃⟩ := mutexUp_through (c := c) hidle₂
    (by rw [hcaller₂]; exact (hk₂.real _).mpr hr) (by rw [hcaller₂]; exact hph₂) hh₂
  refine ⟨r₁,r₂,r₃,hcall,hbody,hup,hcaller₁,hcaller₂,hph₁,hph₂,?_,step_ok hok₂ hup,hh₃,fun t => ?_⟩
  · exact ⟨hf₃.caller.trans hk₂.caller,fun t ht => (hf₃.state t ht).trans (hk₂.state t ht),
      fun t => (hf₃.real t).trans (hk₂.real t)⟩
  · rw [hph₃]
    by_cases ht : t = s.caller
    · rw [ht,← hcaller₂]
      exact goTo_phase_self
    · rw [goTo_phase_of_ne (by rwa [hcaller₂]),hph,goTo_phase_of_ne (by rwa [hcaller₁])]
      exact (goTo_phase_of_ne ht).trans (h.outside t)

end SemaphoreRun

namespace ObjectRun
variable {o : ObjectSet} {v : ℤ → ℕ} {T : Finset ThreadId} {s s' : ObjectRun} {i : ℤ} {t : ThreadId}
  {a a' : Atomic.Objects ℤ ℤ ThreadId} {c : SemaphoreCall}

structure Idle (o : ObjectSet) (v : ℤ → ℕ) (T : Finset ThreadId) (s : ObjectRun) : Prop where
  ok : s.Ok o v
  inside : ∀ t, s.inside t = none
  mutexes : ∀ i ∈ o.mutexes, (s.mutex i).returned = (s.mutex i).holders
  semaphores : ∀ i ∈ o.semaphores, (s.semaphore i).lock.holders = ∅
  real : ∀ t ∈ T, Processes.Real s.kernel.processes t
  state : ∀ t ∈ T, s.kernel.threadState t = some .ready ∨
    t = s.caller ∧ s.kernel.threadState t = some .running

theorem Idle.mutexRun (h : Idle o v T s) (hi : i ∈ o.mutexes) :
    MutexRun.Idle i (s.mutexRun i) := by
  refine ⟨h.ok.mutexes i hi,?_,h.mutexes i hi⟩
  refine Finset.eq_empty_of_forall_notMem (fun t ht => ?_)
  have hin := h.ok.suspended i hi t ht
  rw [h.inside t] at hin
  cases hin

theorem Idle.semaphoreRun (h : Idle o v T s) (hi : i ∈ o.semaphores) :
    SemaphoreRun.Idle i (v i) (s.semaphoreRun i) := by
  refine ⟨h.ok.semaphores i hi,h.semaphores i hi,fun t => ?_⟩
  by_contra hne
  have hin := h.ok.called i hi t hne
  rw [h.inside t] at hin
  cases hin

/-- The threads are where they were. -/
theorem Idle.undisturbed {k : Kernel} (h : Idle o v T s) (hk : Undisturbed ∅ s.kernel k) :
    (∀ t ∈ T, Processes.Real k.processes t) ∧
      ∀ t ∈ T, k.threadState t = some .ready ∨ t = k.caller ∧ k.threadState t = some .running := by
  refine ⟨fun t ht => (hk.real t).mpr (h.real t ht),fun t ht => ?_⟩
  rw [hk.state t (Finset.notMem_empty t),hk.caller]
  exact h.state t ht

/-- The processor goes to the thread that calls. -/
theorem Idle.dispatch (h : Idle o v T s) (ht : s.kernel.threadState t = some .ready) :
    Idle o v T { s with kernel := s.kernel.dispatch t } := by
  have hsome : (s.kernel.threadState t).isSome := by rw [ht]; rfl
  refine ⟨h.ok.dispatch ht,h.inside,h.mutexes,h.semaphores,
    fun u hu => (real_dispatch hsome).mpr (h.real u hu),fun u hu => ?_⟩
  show (s.kernel.dispatch t).threadState u = _ ∨ u = (s.kernel.dispatch t).caller ∧ _
  rw [caller_dispatch hsome,threadState_dispatch hsome]
  by_cases hut : u = t
  · rw [if_pos hut]
    exact Or.inr ⟨hut,rfl⟩
  · rw [if_neg hut]
    refine Or.inl ?_
    rcases h.state u hu with hr | hr
    · split
      · rfl
      · exact hr
    · exact if_pos hr

theorem Idle.summon (h : Idle o v T s) (ht : t ∈ T) : ∃ ks s', Runs.run (step o) s ks = some s' ∧
    Runs.shown (step o) shows s ks = [] ∧ s'.caller = t ∧ Idle o v T s' := by
  rcases h.state t ht with hr | ⟨hc,-⟩
  · refine ⟨[.dispatch t],_,Runs.run_cons.mpr ⟨_,if_pos hr,rfl⟩,?_,?_,h.dispatch hr⟩
    · rw [Runs.shown_cons (if_pos hr)]
      rfl
    · exact caller_dispatch (by rw [hr]; rfl)
  · exact ⟨[],s,rfl,rfl,hc.symm,h⟩

theorem step_mutex {l : MutexStep} {r : MutexRun} (hi : i ∈ o.mutexes) (hf : s.Free (.mutex i))
    (hl : ∀ t, l ≠ .dispatch t) (hr : MutexRun.step i (s.mutexRun i) l = some r) :
    step o s (.mutex i l) = some (s.withMutex i r) := by
  cases l <;> first
    | exact (if_pos ⟨hi,hf⟩).trans (Option.map_eq_some_iff.mpr ⟨r,hr,rfl⟩)
    | exact absurd rfl (hl _)

theorem step_semaphore {l : SemaphoreStep} {r : SemaphoreRun} (hi : i ∈ o.semaphores)
    (hf : s.Free (.semaphore i)) (hl : ∀ t, l ≠ .dispatch t)
    (hr : SemaphoreRun.step i (s.semaphoreRun i) l = some r) :
    step o s (.semaphore i l) = some (s.withSemaphore i r) := by
  cases l <;> first
    | exact (if_pos ⟨hi,hf⟩).trans (Option.map_eq_some_iff.mpr ⟨r,hr,rfl⟩)
    | exact absurd rfl (hl _)

/-- The call of a mutex that leaves it idle. -/
theorem Idle.withMutex {l : MutexStep} {r : MutexRun} (h : Idle o v T s) (hi : i ∈ o.mutexes)
    (hl : ∀ t, l ≠ .dispatch t) (hr : MutexRun.step i (s.mutexRun i) l = some r)
    (hidle : MutexRun.Idle i r) (hk : Frame ∅ s.kernel r.kernel) :
    step o s (.mutex i l) = some (s.withMutex i r) ∧ Idle o v T (s.withMutex i r) := by
  have hf : s.Free (.mutex i) := Or.inl (h.inside _)
  obtain ⟨hreal,hstate⟩ := h.undisturbed ⟨hk.caller,hk.state,hk.real⟩
  refine ⟨step_mutex hi hf hl hr,h.ok.withMutex hi hf hl hr,fun t => ?_,fun j hj => ?_,h.semaphores,
    hreal,hstate⟩
  · show s.enter (.mutex i) (s.caller ∈ r.suspended) t = none
    rw [hidle.suspended]
    by_cases ht : t = s.caller
    · rw [ht,enter,Function.update_self,if_neg (Finset.notMem_empty _)]
    · rw [enter_of_ne ht,h.inside]
  · by_cases hji : j = i
    · subst hji
      simpa [ObjectRun.withMutex] using hidle.returned
    · simpa [ObjectRun.withMutex,hji] using h.mutexes j hj

/-- Steps on one semaphore, one after the other. -/
theorem withSemaphore_withSemaphore {r₁ : SemaphoreRun} (h : r₁.caller = s.caller)
    (r₂ : SemaphoreRun) :
    (s.withSemaphore i r₁).withSemaphore i r₂ = s.withSemaphore i r₂ := by
  have hc : (s.withSemaphore i r₁).caller = s.caller := h
  have hsem : Function.update (Function.update s.semaphore i r₁) i r₂ =
      Function.update s.semaphore i r₂ := Function.update_idem _ _ _
  have hin : (s.withSemaphore i r₁).enter (.semaphore i)
      (r₂.phase (s.withSemaphore i r₁).caller ≠ .outside) =
        s.enter (.semaphore i) (r₂.phase s.caller ≠ .outside) := by
    rw [enter,hc]
    exact Function.update_idem _ _ _
  exact congrArg₂ (ObjectRun.mk r₂.kernel s.mutex) hsem hin

def operation (i : ℤ) : SemaphoreCall → Atomic.Operation ℤ ℤ
  | .wait => .wait i
  | .signal => .signal i

def wholeCall (i : ℤ) (c : SemaphoreCall) : List ObjectStep :=
  [.semaphore i (.call c),.semaphore i .body,.semaphore i .mutexUp]

theorem run_wholeCall {r₁ r₂ r₃ : SemaphoreRun} {w : ℤ} (hi : i ∈ o.semaphores)
    (hf : s.inside s.caller = none) (h : SemaphoreRun.Through i w c (s.semaphoreRun i) r₁ r₂ r₃) :
    Runs.run (step o) s (wholeCall i c) = some (s.withSemaphore i r₃) ∧
      Runs.shown (step o) shows s (wholeCall i c) = [(s.caller,operation i c)] := by
  have hcaller₁ : (s.withSemaphore i r₁).caller = s.caller := h.caller₁
  have hcaller₂ : (s.withSemaphore i r₂).caller = s.caller := h.caller₂
  have hfree : ∀ {r : SemaphoreRun}, r.caller = s.caller → r.phase s.caller ≠ .outside →
      (s.withSemaphore i r).Free (.semaphore i) := by
    intro r hr hp
    refine Or.inr ?_
    rw [show (s.withSemaphore i r).caller = s.caller from hr]
    exact enter_self hp
  have hphase₁ : r₁.phase s.caller = .body c := h.phase₁
  have hphase₂ : r₂.phase s.caller = .leave c := h.phase₂
  have h₁ : step o s (.semaphore i (.call c)) = some (s.withSemaphore i r₁) :=
    step_semaphore hi (Or.inl hf) (fun _ => SemaphoreStep.noConfusion) h.call
  have h₂ : step o (s.withSemaphore i r₁) (.semaphore i .body) = some (s.withSemaphore i r₂) := by
    rw [← withSemaphore_withSemaphore h.caller₁ r₂]
    refine step_semaphore hi (hfree h.caller₁ (by rw [hphase₁]; exact SemaphorePhase.noConfusion))
      (fun _ => SemaphoreStep.noConfusion) ?_
    rw [semaphoreRun_withSemaphore_self]
    exact h.body
  have h₃ : step o (s.withSemaphore i r₂) (.semaphore i .mutexUp) = some (s.withSemaphore i r₃) := by
    rw [← withSemaphore_withSemaphore h.caller₂ r₃]
    refine step_semaphore hi (hfree h.caller₂ (by rw [hphase₂]; exact SemaphorePhase.noConfusion))
      (fun _ => SemaphoreStep.noConfusion) ?_
    rw [semaphoreRun_withSemaphore_self]
    exact h.mutexUp
  refine ⟨Runs.run_cons.mpr ⟨_,h₁,Runs.run_cons.mpr ⟨_,h₂,Runs.run_cons.mpr ⟨_,h₃,rfl⟩⟩⟩,?_⟩
  rw [wholeCall,Runs.shown_cons h₁,Runs.shown_cons h₂,Runs.shown_cons h₃]
  have hp₁ : r₁.phase r₁.caller = .body c := by
    rw [h.caller₁]
    exact h.phase₁
  have hp₂ : r₂.phase r₂.caller = .leave c := by
    rw [h.caller₂]
    exact h.phase₂
  cases c <;> simp [shows,SemaphoreRun.shows,hp₁,hp₂,hcaller₁,hcaller₂,operation,Runs.shown]

theorem Idle.withSemaphore {r₁ r₂ r₃ : SemaphoreRun} (h : Idle o v T s) (hi : i ∈ o.semaphores)
    (hr : SemaphoreRun.Through i (v i) c (s.semaphoreRun i) r₁ r₂ r₃)
    (hok : (s.withSemaphore i r₃).Ok o v) : Idle o v T (s.withSemaphore i r₃) := by
  obtain ⟨hreal,hstate⟩ := h.undisturbed hr.kernel
  refine ⟨hok,fun t => ?_,h.mutexes,fun j hj => ?_,hreal,hstate⟩
  · show s.enter (.semaphore i) (r₃.phase s.caller ≠ .outside) t = none
    by_cases ht : t = s.caller
    · rw [ht,enter,Function.update_self,if_neg (not_not.mpr (hr.idle.outside _))]
    · rw [enter_of_ne ht,h.inside]
  · by_cases hji : j = i
    · subst hji
      simpa [ObjectRun.withSemaphore] using hr.idle.holders
    · simpa [ObjectRun.withSemaphore,hji] using h.semaphores j hj

/-- The calls that can be made: by a thread of `T`, on an object in use, and no `signal` that
overflows. -/
def Allowed (o : ObjectSet) (T : Finset ThreadId) (a : Atomic.Objects ℤ ℤ ThreadId)
    (e : ThreadId × Atomic.Operation ℤ ℤ) : Prop :=
  e.1 ∈ T ∧ match e.2 with
    | .wait i => i ∈ o.semaphores
    | .signal i => i ∈ o.semaphores ∧ (a.permits i : ℤ) < maxInt
    | .down i => i ∈ o.mutexes
    | .up i => i ∈ o.mutexes

theorem implements_of_run {ks : List ObjectStep} {es : List (ThreadId × Atomic.Operation ℤ ℤ)}
    (h : s.Ok o v) (hi : s.Implements o v a) (hr : Runs.run (step o) s ks = some s')
    (hes : Runs.shown (step o) shows s ks = es) (ha : Runs.run Atomic.step a es = some a') :
    s'.Ok o v ∧ s'.Implements o v a' := by
  obtain ⟨b,hb,hok,hi⟩ := Runs.run_simulated (R := fun s a => s.Ok o v ∧ s.Implements o v a)
    (fun _ l _ _ h hs => step_simulated l h hs) ⟨h,hi⟩ hr
  rw [hes,ha] at hb
  obtain rfl := Option.some.inj hb
  exact ⟨hok,hi⟩

theorem Idle.value (h : Idle o v T s) (hi : s.Implements o v a) (hmem : i ∈ o.semaphores) :
    (s.kernel.semaphores i).value = a.permits i := by
  have hpending : (s.semaphore i).pending = ∅ := by
    refine Finset.eq_empty_of_forall_notMem (fun t ht => ?_)
    have hp := ((h.ok.semaphores i hmem).phases.pending t).mp ht
    rw [(h.semaphoreRun hmem).outside t] at hp
    simp [SemaphoreRun.SemaphorePhase.Pends] at hp
  have hpermits := (h.ok.agrees hi).permits i hmem
  rw [hpending,Finset.card_empty] at hpermits
  omega

theorem Idle.call (h : Idle o v T s) (hi : s.Implements o v a) (hmem : i ∈ o.semaphores)
    (ht : s.caller ∈ T) (hg : SemaphoreRun.Granted i (s.semaphoreRun i) c)
    (ha : Atomic.step a (s.caller,operation i c) = some a') :
    ∃ ks s', Runs.run (step o) s ks = some s' ∧
      Runs.shown (step o) shows s ks = [(s.caller,operation i c)] ∧
      Idle o v T s' ∧ s'.Implements o v a' := by
  obtain ⟨r₁,r₂,r₃,hthrough⟩ := (h.semaphoreRun hmem).through (h.real _ ht) hg
  obtain ⟨hrun,hshown⟩ := run_wholeCall hmem (h.inside _) hthrough
  obtain ⟨hok,hi⟩ := implements_of_run h.ok hi hrun hshown (Runs.run_cons.mpr ⟨a',ha,rfl⟩)
  exact ⟨_,_,hrun,hshown,h.withSemaphore hmem hthrough hok,hi⟩

theorem Idle.down (h : Idle o v T s) (hi : s.Implements o v a) (hmem : i ∈ o.mutexes)
    (ht : s.caller ∈ T) (ha : Atomic.step a (s.caller,.down i) = some a') :
    ∃ ks s', Runs.run (step o) s ks = some s' ∧
      Runs.shown (step o) shows s ks = [(s.caller,.down i)] ∧
      Idle o v T s' ∧ s'.Implements o v a' := by
  obtain ⟨hfree,-,-⟩ := Atomic.step_down_some ha
  have hnone : (s.mutex i).holders = ∅ := by
    rw [← h.mutexes i hmem]
    refine Finset.eq_empty_of_forall_notMem (fun t ht => ?_)
    have hheld := (hi.holder i hmem t).mpr ht
    rw [hfree] at hheld
    cases hheld
  obtain ⟨r,hr,hidle,-,hshows,hk⟩ := (h.mutexRun hmem).mutexDown (h.real _ ht) hnone
  obtain ⟨hs,hidle⟩ := h.withMutex hmem (fun _ => MutexStep.noConfusion) hr hidle hk
  have hrun : Runs.run (step o) s [.mutex i .mutexDown] = some _ := Runs.run_cons.mpr ⟨_,hs,rfl⟩
  have hshown : Runs.shown (step o) shows s [.mutex i .mutexDown] = [(s.caller,.down i)] := by
    rw [Runs.shown_cons hs,shows,hshows]
    rfl
  exact ⟨_,_,hrun,hshown,hidle,
    (implements_of_run h.ok hi hrun hshown (Runs.run_cons.mpr ⟨a',ha,rfl⟩)).2⟩

theorem Idle.up (h : Idle o v T s) (hi : s.Implements o v a) (hmem : i ∈ o.mutexes)
    (ht : s.caller ∈ T) (ha : Atomic.step a (s.caller,.up i) = some a') :
    ∃ ks s', Runs.run (step o) s ks = some s' ∧
      Runs.shown (step o) shows s ks = [(s.caller,.up i)] ∧
      Idle o v T s' ∧ s'.Implements o v a' := by
  obtain ⟨r,hr,hidle,-,hk⟩ := (h.mutexRun hmem).mutexUp (h.real _ ht)
  obtain ⟨hs,hidle⟩ := h.withMutex hmem (fun _ => MutexStep.noConfusion) hr hidle hk
  have hrun : Runs.run (step o) s [.mutex i .mutexUp] = some _ := Runs.run_cons.mpr ⟨_,hs,rfl⟩
  have hshown : Runs.shown (step o) shows s [.mutex i .mutexUp] = [(s.caller,.up i)] := by
    rw [Runs.shown_cons hs]
    rfl
  exact ⟨_,_,hrun,hshown,hidle,
    (implements_of_run h.ok hi hrun hshown (Runs.run_cons.mpr ⟨a',ha,rfl⟩)).2⟩

/-- One operation is one call of the thread, which is switched to first. -/
theorem step_completed {e : ThreadId × Atomic.Operation ℤ ℤ}
    (h : Idle o v T s ∧ s.Implements o v a) (he : Allowed o T a e) (ha : Atomic.step a e = some a') :
    ∃ ks s', Runs.run (step o) s ks = some s' ∧ Runs.shown (step o) shows s ks = [e] ∧
      Idle o v T s' ∧ s'.Implements o v a' := by
  obtain ⟨h,hi⟩ := h
  obtain ⟨t,e⟩ := e
  obtain ⟨ht,he⟩ := he
  obtain ⟨ks,s₁,hrun,hshown,rfl,h₁⟩ := h.summon ht
  obtain ⟨-,hi₁⟩ := implements_of_run h.ok hi hrun hshown rfl
  have hcall : ∃ ks s', Runs.run (step o) s₁ ks = some s' ∧
      Runs.shown (step o) shows s₁ ks = [(s₁.caller,e)] ∧ Idle o v T s' ∧ s'.Implements o v a' := by
    cases e with
    | wait i =>
      obtain ⟨hpos,-⟩ := Atomic.step_wait_some ha
      refine h₁.call (c := .wait) hi₁ he ht ?_ ha
      show 0 < (s₁.kernel.semaphores i).value
      rw [h₁.value hi₁ he]
      omega
    | signal i =>
      refine h₁.call (c := .signal) hi₁ he.1 ht ?_ ha
      show (s₁.kernel.semaphores i).value < maxInt
      rw [h₁.value hi₁ he.1]
      exact he.2
    | down i => exact h₁.down hi₁ he ht ha
    | up i => exact h₁.up hi₁ he ht ha
  obtain ⟨ks',s',hrun',hshown',hrest⟩ := hcall
  refine ⟨ks++ks',s',Runs.run_append.mpr ⟨s₁,hrun,hrun'⟩,?_,hrest⟩
  rw [Runs.shown_append hrun,hshown,hshown']
  rfl

structure Staffed (T : Finset ThreadId) (k : Kernel) : Prop where
  real : ∀ t ∈ T, Processes.Real k.processes t
  state : ∀ t ∈ T, k.threadState t = some .ready ∨ t = k.caller ∧ k.threadState t = some .running

theorem start_idle {k : Kernel} (hk : Starts o v k) (ht : Staffed T k) : Idle o v T (start k) :=
  ⟨start_ok hk,fun _ => rfl,fun _ _ => rfl,fun _ _ => rfl,ht.real,ht.state⟩

/-- Every run of counters and locks is one of the kernel. -/
theorem run_completed {k : Kernel} (hk : Starts o v k) (ht : Staffed T k)
    {es : List (ThreadId × Atomic.Operation ℤ ℤ)}
    (hes : Runs.Along Atomic.step (Allowed o T) ⟨v,fun _ => none⟩ es)
    (ha : Runs.run Atomic.step ⟨v,fun _ => none⟩ es = some a) :
    ∃ ks s, Runs.run (step o) (start k) ks = some s ∧
      Runs.shown (step o) shows (start k) ks = es ∧ s.Agrees o a := by
  obtain ⟨ks,s,hrun,hshown,hidle,hi⟩ := Runs.run_completed
    (R := fun s a => Idle o v T s ∧ s.Implements o v a)
    (fun _ _ _ _ h he ha => step_completed h he ha) ⟨start_idle hk ht,start_implements⟩ hes ha
  exact ⟨ks,s,hrun,hshown,hidle.ok.agrees hi⟩

end ObjectRun
end ComplexOS
