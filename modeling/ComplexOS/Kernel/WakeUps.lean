import ComplexOS.Kernel.Commands
import ComplexOS.Kernel.MutexRuns

/-! # Wake-ups in the whole kernel

Runs of system calls, interrupts and switches. Every piece of the kernel has an
`Effect` that keeps the discipline of the wait queues, as long as the pieces that set
states without a look at the lists do so to threads that are on none.
-/
namespace ComplexOS
open Kernel Runs

def Command.Kills : Command → ThreadId → Prop
  | .removeBlockedFromMutex v _ _, t => v.Covers t
  | _, _ => False

instance (c : Command) : DecidablePred c.Kills := fun t => by
  cases c <;> simp only [Command.Kills] <;> infer_instance

namespace Machine
variable (s : Machine)

def next : Option Command := (s.calls s.caller).head?

/-- The wake-ups of one step; who goes on behind its yield; and how a `mutexDown` on a valid
mutex ends: it has the mutex, or the caller is BLOCKED and yields, or the list was full and the
thread is killed. -/
structure SoundStep (e : Event) (s' : Machine) : Prop where
  wakes : ∀ t q, s.kernel.threadState t = some .blocked → s'.kernel.threadState t = some .ready →
    s.why t = some q →
      Justified (fun u => e = .run ∧ ∃ c ∈ s.next, c.Kills u) s.kernel s'.kernel q t
  resumes : ∀ t, e = .dispatch t → ¬ s.kernel.Listed t
  owns : ∀ m t, e = .run → s.next = some (.mutexDown m t) → s.kernel.isValidMutex m →
    (s'.kernel.mutexes m).lockProcess = t ∨
      (t = s.caller ∧ s'.kernel.threadState t ≠ some .running ∧
        (s'.calls t).head? = some .yield) ∨
      (s'.calls s.caller).head? = some (.killThread t)

def CalmCommand : Command → Prop
  | .mutexDown mutex t => (t = s.caller ∧ ¬ s.kernel.Listed t) ∨ ¬ s.kernel.isValidMutex mutex ∨
      (s.kernel.mutexes mutex).value ≠ locked
  | .waitBody _ | .sleep _ | .blockCaller => ¬ s.kernel.Listed s.caller
  | .killProcess pid => s.foreground = some pid → ∀ t ∈ s.kernel.heir pid, ¬ s.kernel.Listed t
  | .removeSleepingProcess t => ¬ s.kernel.Listed t
  | .key .enter => ∀ t ∈ s.foregroundThread, ¬ s.kernel.Listed t
  | _ => True

/-- No `mutexDown` in another thread's name finds the mutex locked, and no thread on a
blocked list is put on another or to sleep, or woken by Enter, as the new foreground, by the end
of a sleep, or because no thread is READY. -/
def Calm : Event → Prop
  | .run => ∀ c ∈ s.next, s.CalmCommand c
  | .dispatch t => s.kernel.threadState t = some .ready ∨ ¬ s.kernel.Listed t
  | _ => True

instance (t : ThreadId) : Decidable (s.kernel.Listed t) :=
  decidable_of_iff ((∃ m < maxMutexes.toNat, ∃ i < maxBlocked,
      (s.kernel.mutexes (m : ℕ)).list.blocked i = t) ∨
    ∃ m < maxSemaphores.toNat, ∃ i < maxBlocked,
      (s.kernel.semaphores (m : ℕ)).list.blocked i = t) (by
    constructor
    · rintro (⟨m,hm,hi⟩ | ⟨m,hm,hi⟩)
      · exact ⟨.mutex m,⟨by omega,by omega⟩,hi⟩
      · exact ⟨.semaphore m,⟨by omega,by omega⟩,hi⟩
    · rintro ⟨m | m,⟨h0,h1⟩,hi⟩ <;> lift m to ℕ using h0
      · exact Or.inl ⟨m,by omega,hi⟩
      · exact Or.inr ⟨m,by omega,hi⟩)

instance : DecidablePred s.CalmCommand := fun c => by
  cases c with
  | key key => cases key <;> simp only [CalmCommand] <;> infer_instance
  | _ => simp only [CalmCommand]; infer_instance

instance : DecidablePred s.Calm := fun e => by
  cases e <;> simp only [Calm] <;> infer_instance

structure Starts : Prop where
  lists : ∀ q, q.InRange → (s.kernel.list q).Holds ∅
  why : ∀ t, s.why t = none
  named : s.kernel.Named

variable {s} {s' : Machine} {c : Command} {cs : List Command} {e : Event}
  {waiting : Queue → Finset ThreadId} {t : ThreadId}

theorem Starts.waits (h : s.Starts) : s.kernel.Waits s.why (fun _ => ∅) := by
  refine ⟨h.lists,fun q t hm => absurd hm (Finset.notMem_empty t),h.named,?_,?_,?_⟩
  · exact fun q t hm => absurd hm (Finset.notMem_empty t)
  · exact fun q t hm => absurd hm (Finset.notMem_empty t)
  · intro q t _ hy
    rw [h.why t] at hy
    cases hy

section
variable {kills : ThreadId → Prop} {new : List Command}

theorem goOn_effect (h : s.kernel.Waits s.why waiting) (hx : s.goOn new = some (s',cs)) :
    Effect kills s.why s'.why s.kernel s'.kernel := by
  cases hx
  exact Effect.same h (fun _ _ => rfl) rfl

theorem withKernel_effect {o : Option Kernel} (hx : o.map (s.withKernel new) = some (s',cs))
    (he : ∀ k, o = some k → Effect kills s.why s.why s.kernel k) :
    Effect kills s.why s'.why s.kernel s'.kernel := by
  obtain ⟨k,hk,hx⟩ := Option.map_eq_some_iff.mp hx
  cases hx
  exact he k hk

theorem slept_effect {o : Option (DownOutcome × Kernel)} {q : Queue}
    (hx : o.map (s.slept t q new) = some (s',cs))
    (he : ∀ x k, o = some (x,k) → Effect kills s.why (Kernel.slept s.why x t q) s.kernel k) :
    Effect kills s.why s'.why s.kernel s'.kernel := by
  obtain ⟨⟨x,k⟩,hk,hx⟩ := Option.map_eq_some_iff.mp hx
  cases hx
  exact he x k hk

end

theorem mutexDown_queued {k k' : Kernel} {m : ℤ} (h : k.mutexDown m t = some (.queued,k')) :
    k.isValidMutex m ∧ (k.mutexes m).value = locked := by
  rw [Kernel.mutexDown] at h
  split at h
  · rename_i hv
    simp only at h
    split at h
    · rename_i hl
      exact ⟨hv,hl⟩
    · cases h
  · cases h

theorem exec_effect (h : s.kernel.Waits s.why waiting) (hc : s.CalmCommand c)
    (hx : s.exec c = some (s',cs)) : Effect c.Kills s.why s'.why s.kernel s'.kernel := by
  cases c with
  | mutexDown mutex t =>
    simp only [exec] at hx
    split at hx
    · rename_i hu
      refine slept_effect hx (fun x k hk => mutexDown_effect h hu hk (fun hq => ?_))
      rcases hc with ⟨-,hc⟩ | hc
      · exact fun _ => h.not_waiting hc
      · obtain ⟨hv,hl⟩ := mutexDown_queued (hq ▸ hk)
        rcases hc with hc | hc
        · exact absurd hv hc
        · exact absurd hl hc
    · cases hx
  | mutexUp mutex t => exact withKernel_effect hx (fun k hk => mutexUp_effect h hk)
  | releaseMutex mutex t => exact goOn_effect h hx
  | releaseMutexBody mutex t =>
    simp only [exec] at hx
    split at hx
    · cases hx
      exact disownMutex_effect h
    · exact goOn_effect h hx
  | unlockWhile q mutex =>
    simp only [exec] at hx
    split at hx
    · rename_i hr
      split at hx
      · obtain ⟨⟨b,k⟩,hk,hx⟩ := Option.map_eq_some_iff.mp hx
        cases hx
        exact (unlockProcess_effect h hr.2 hk).2
      · exact goOn_effect h hx
    · cases hx
  | wait semaphore => exact goOn_effect h hx
  | waitBody semaphore =>
    simp only [exec] at hx
    split at hx
    · rename_i hr
      have hused : s.caller.used := (h.named s.caller hr.2).1
      exact slept_effect hx (fun x k hk =>
        waitBody_effect h hr.1 hused hk (fun _ _ => h.not_waiting hc))
    · cases hx
  | signal semaphore => exact goOn_effect h hx
  | signalBody semaphore =>
    simp only [exec] at hx
    split at hx
    · rename_i hr
      exact withKernel_effect hx (fun k hk => signalBody_effect h hr hk)
    · cases hx
  | releaseSemaphore semaphore t => exact goOn_effect h hx
  | releaseSemaphoreBody semaphore t => exact goOn_effect h hx
  | disownSemaphore semaphore =>
    cases hx
    exact disownSemaphore_effect h
  | removeFromMutexes v t => exact goOn_effect h hx
  | releaseOwnedMutex v i t => exact goOn_effect h hx
  | upHeldMutex v i => exact goOn_effect h hx
  | removeBlockedFromMutex v i j =>
    simp only [exec] at hx
    split at hx
    · rename_i hr
      exact withKernel_effect hx (fun k hk => removeBlockedFromMutex_effect h hr.1 hr.2 hk)
    · cases hx
  | removeFromSemaphores v t => exact goOn_effect h hx
  | releaseOwnedSemaphore v i t => exact goOn_effect h hx
  | removeBlockedFromSemaphore v i j =>
    simp only [exec] at hx
    split at hx
    · rename_i hr
      exact withKernel_effect hx (fun k hk => removeBlockedFromSemaphore_effect h hr.1 hr.2 hk)
    · cases hx
  | killThread t =>
    simp only [exec] at hx
    split at hx <;> exact goOn_effect h hx
  | terminateThread t =>
    obtain ⟨p,hp,hx⟩ := Option.bind_eq_some_iff.mp hx
    split at hx
    · exact goOn_effect h hx
    · split at hx
      · cases hx
        exact terminateThread_effect h hp
      · exact goOn_effect h hx
  | killProcess pid =>
    simp only [exec] at hx
    split at hx
    · exact goOn_effect h hx
    · rename_i p hp
      split at hx
      · obtain ⟨s₁,h₁,hx⟩ := Option.map_eq_some_iff.mp hx
        cases hx
        exact System.leaveForeground_effect h hp hc h₁
      · exact goOn_effect h hx
  | removePidFromMutexes v =>
    obtain ⟨p,-,hx⟩ := Option.bind_eq_some_iff.mp hx
    exact goOn_effect h hx
  | removePidFromSemaphores v =>
    obtain ⟨p,-,hx⟩ := Option.bind_eq_some_iff.mp hx
    exact goOn_effect h hx
  | removeProcess pid =>
    cases hx
    exact removeProcess_effect h
  | sleep milliseconds =>
    obtain ⟨-,hx⟩ := Option.ite_none_right_eq_some.mp hx
    obtain ⟨T,hT,hx⟩ := Option.map_eq_some_iff.mp hx
    cases hx
    exact System.setClock_effect .sleeping h (fun _ => h.not_waiting hc) (by decide)
      (Timer.sleep_spec hT)
  | decrementTicks i current =>
    simp only [exec] at hx
    split at hx
    · cases hx
      exact Effect.same h (fun _ _ => rfl) rfl
    · exact goOn_effect h hx
  | removeSleepingProcess t =>
    obtain ⟨T,hT,hx⟩ := Option.map_eq_some_iff.mp hx
    cases hx
    exact System.setClock_effect .ready h (fun _ => h.not_waiting hc) (by decide)
      (Timer.removeSleepingProcess_spec hT)
  | nextSleeper i current => exact goOn_effect h hx
  | sysRead size noBlock =>
    obtain ⟨fg,-,hx⟩ := Option.bind_eq_some_iff.mp hx
    exact goOn_effect h hx
  | blockCaller =>
    obtain ⟨halive,hx⟩ := Option.ite_none_right_eq_some.mp hx
    obtain ⟨s₁,h₁,hx⟩ := Option.map_eq_some_iff.mp hx
    cases hx
    exact System.blockCaller_effect h halive hc h₁
  | readBuffer => exact goOn_effect h hx
  | blockRead =>
    obtain ⟨s₁,h₁,hx⟩ := Option.map_eq_some_iff.mp hx
    cases hx
    exact System.blockRead_effect h h₁
  | takeChar =>
    cases hx
    exact Effect.same h (fun _ _ => rfl) rfl
  | nonBlockRead =>
    cases hx
    exact Effect.same h (fun _ _ => rfl) rfl
  | key key =>
    cases key with
    | enter =>
      obtain ⟨s₁,h₁,hx⟩ := Option.map_eq_some_iff.mp hx
      cases hx
      exact System.unblockRead_effect (s := { s with terminal := s.terminal.newLine }) h hc h₁
    | ctrlC => exact goOn_effect h hx
    | backspace | char | left | right =>
      cases hx
      exact Effect.same h (fun _ _ => rfl) rfl
  | yield => cases hx

/-- What a command of `mutexDown` leaves behind on a valid mutex. -/
theorem exec_mutexDown {m : ℤ} (hn : s.kernel.Named)
    (hc : s.CalmCommand (.mutexDown m t)) (hv : s.kernel.isValidMutex m)
    (hx : s.exec (.mutexDown m t) = some (s',cs)) :
    (s'.kernel.mutexes m).lockProcess = t ∨
      (t = s.caller ∧ s'.kernel.threadState t ≠ some .running ∧ cs = [.yield]) ∨
        cs = [.killThread t,.yield] := by
  simp only [exec] at hx
  split at hx
  · obtain ⟨⟨o,k⟩,hk,hx⟩ := Option.map_eq_some_iff.mp hx
    cases hx
    rw [Kernel.mutexDown,if_pos hv] at hk
    simp only at hk
    split at hk
    · rename_i hl
      obtain ⟨rfl,-⟩ := hc.resolve_right (fun h => h.elim (absurd hv) (absurd hl))
      split at hk
      · rename_i k₁ hadd
        obtain ⟨k₂,hk₂,he⟩ := Option.map_eq_some_iff.mp hk
        cases he
        obtain ⟨l,-,rfl⟩ := Option.map_eq_some_iff.mp hadd
        have hself := (changeThreadState_spec (k := (s.kernel.testAndSetLock m).setMutex m _) hn hk₂).2.2.2.2
        refine Or.inr (Or.inl ⟨rfl,?_,rfl⟩)
        show k.threadState s.caller ≠ some .running
        rw [hself]
        cases (Kernel.setMutex (s.kernel.testAndSetLock m) m _).threadState s.caller <;> simp
      · cases hk
        exact Or.inr (Or.inr rfl)
    · cases hk
      exact Or.inl (by rw [setMutex_mutexes_self])
  · cases hx

theorem next_eq (h : s.calls s.caller = c::cs) : s.next = some c := by rw [next,h]; rfl

/-- A calm step keeps the discipline and is sound. -/
theorem step_effect (h : s.kernel.Waits s.why waiting) (hc : s.Calm e) (hx : s.step e = some s') :
    Effect (fun u => e = .run ∧ ∃ c ∈ s.next, c.Kills u) s.why s'.why s.kernel s'.kernel := by
  cases e with
  | syscall call =>
    simp only [step] at hx
    split at hx
    · cases hx
      exact Effect.same h (fun _ _ => rfl) rfl
    · cases hx
  | run =>
    simp only [step] at hx
    split at hx
    · cases hx
    · rename_i c cs hcs
      obtain ⟨⟨s₁,new⟩,h₁,hx⟩ := Option.map_eq_some_iff.mp hx
      cases hx
      have hnext := next_eq hcs
      have heffect := exec_effect (s := { s with calls := Function.update s.calls s.caller cs }) h
        (hc c hnext) h₁
      refine ⟨heffect.keeps,fun t q hb ht hy => ?_⟩
      exact (heffect.wakes t q hb ht hy).mono (fun hk => ⟨rfl,c,hnext,hk⟩)
  | dispatch t =>
    simp only [step] at hx
    split at hx
    · rename_i ht
      cases hx
      have hn : ∀ q, t ∉ waiting q := by
        intro q
        rcases hc with hr | hl
        · exact h.awake hr (by decide)
        · exact h.not_waiting hl
      refine dispatch_effect h ?_ hn
      rcases ht with ht | ht
      · rw [ht]
        rfl
      · exact ht.2
    · cases hx
  | tick =>
    cases hx
    exact Effect.same h (fun _ _ => rfl) rfl
  | key key =>
    cases hx
    exact Effect.same h (fun _ _ => rfl) rfl

theorem step_owns {m : ℤ} (hn : s.kernel.Named) (hc : s.Calm .run)
    (hnext : s.next = some (.mutexDown m t)) (hv : s.kernel.isValidMutex m)
    (hx : s.step .run = some s') :
    (s'.kernel.mutexes m).lockProcess = t ∨
      (t = s.caller ∧ s'.kernel.threadState t ≠ some .running ∧
        (s'.calls t).head? = some .yield) ∨
      (s'.calls s.caller).head? = some (.killThread t) := by
  simp only [step] at hx
  split at hx
  · cases hx
  · rename_i c cs hcs
    obtain rfl : c = .mutexDown m t := Option.some.inj ((next_eq hcs).symm.trans hnext)
    obtain ⟨⟨s₁,new⟩,h₁,hx⟩ := Option.map_eq_some_iff.mp hx
    cases hx
    have howns := exec_mutexDown (s := { s with calls := Function.update s.calls s.caller cs }) hn
      (hc _ hnext) hv h₁
    refine howns.imp_right (Or.imp (fun hqueued => ?_) (fun hnew => ?_))
    · have hself : t = s.caller := hqueued.1
      refine ⟨hself,hqueued.2.1,?_⟩
      rw [hself]
      simp only [push,Function.update_self,hqueued.2.2]
      rfl
    · simp only [push,Function.update_self,hnew]
      rfl

theorem step_sound (h : s.kernel.Waits s.why waiting) (hc : s.Calm e) (hx : s.step e = some s') :
    s.SoundStep e s' := by
  refine ⟨(step_effect h hc hx).wakes,fun t he => ?_,
    fun _ _ he hnext hv => step_owns h.named (he ▸ hc) hnext hv (he ▸ hx)⟩
  subst he
  exact hc.elim h.not_listed id

def twoProcesses : Machine where
  kernel := (MutexRun.clearedKernel.createMutex 1 [109] 0).2.setSemaphore 0
    ⟨⟨1,0⟩,fun _ => 0,BlockedList.empty,0,1⟩
  semaphoreMutex := adminMutex
  foreground := some 1
  terminal := ⟨0,0,0,0,0⟩
  timer := Timer.initializeTimer Processes.twoThreads
  calls := fun _ => []
  why := fun _ => none

theorem twoProcesses_starts : twoProcesses.Starts := by
  refine ⟨?_,fun _ => rfl,fun t ht => ?_⟩
  · rintro (m | m) -
    · by_cases hm : m = 1
      · subst hm
        exact Mutex.clear_list _
      · have hlist : twoProcesses.kernel.list (.mutex m) = MutexRun.clearedKernel.list (.mutex m) :=
          congrArg Mutex.list (setMutex_mutexes_of_ne MutexRun.clearedKernel hm _)
        rw [hlist]
        exact Mutex.clear_list _
    · by_cases hm : m = 0
      · subst hm
        exact BlockedList.empty_holds
      · have hlist : twoProcesses.kernel.list (.semaphore m) =
            MutexRun.clearedKernel.list (.semaphore m) :=
          list_setSemaphore_of_ne (fun h => hm (Queue.semaphore.inj h))
        rw [hlist]
        exact BlockedList.empty_holds
  · have ht' : (Processes.threadState Processes.twoThreads t).isSome := ht
    simp only [Processes.threadState,Processes.thread?,Processes.twoThreads] at ht'
    split at ht'
    · rename_i hp
      simp only [Option.bind_some] at ht'
      split at ht'
      · rename_i hth
        refine ⟨?_,by omega,by rw [hth]; decide⟩
        rcases hp with hp | hp <;> rw [ThreadId.used,hp] <;> decide
      · cases ht'
    · cases ht'

def queued : List Event := [.dispatch ⟨2,0⟩,.syscall (.mutexDown 1),.run,.dispatch ⟨1,0⟩,
  .syscall (.mutexDown 1),.run,.dispatch ⟨2,0⟩,.key .enter]

end Machine
end ComplexOS
