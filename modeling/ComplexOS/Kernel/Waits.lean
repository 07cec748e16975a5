import ComplexOS.Kernel.Semaphore
import ComplexOS.Library.WaitQueues

/-! # Who waits for what

The blocked lists of all mutexes and semaphores together, with the reason why each
thread was last made BLOCKED. `Effect` says of one piece of kernel code that it keeps
the discipline of wait queues and that every wake-up it does is one of the queue that
the thread waited on.
-/
namespace ComplexOS
open WaitQueues

inductive Queue
  | mutex (m : ℤ)
  | semaphore (s : ℤ)
  deriving DecidableEq, Repr

def Queue.InRange : Queue → Prop
  | .mutex m => 0 ≤ m ∧ m < maxMutexes
  | .semaphore s => 0 ≤ s ∧ s < maxSemaphores

namespace Kernel
variable (k : Kernel)

def list : Queue → BlockedList
  | .mutex m => (k.mutexes m).list
  | .semaphore s => (k.semaphores s).list

def Named : Prop := ∀ t, (k.threadState t).isSome → t.used ∧ 0 ≤ t.thread ∧ t.thread < maxThreads

structure Waits (why : ThreadId → Option Queue) (waiting : Queue → Finset ThreadId) : Prop where
  lists : ∀ q, q.InRange → (k.list q).Holds (waiting q)
  ranged : ∀ q t, t ∈ waiting q → q.InRange
  named : k.Named
  discipline : Consistent (fun t => k.threadState t = some .blocked)
    (fun t => k.threadState t = none) why waiting

/-- Why a thread that waited on `q` may be made READY: it has been handed the mutex, it
is being killed, or it has been taken off the list of the semaphore. -/
def Justified (kills : ThreadId → Prop) (k k' : Kernel) : Queue → ThreadId → Prop
  | .mutex m, t => (k'.mutexes m).lockProcess = t ∨ kills t
  | .semaphore s, t => (∃ i < maxBlocked, (k.semaphores s).list.blocked i = t) ∧
    ∀ i < maxBlocked, (k'.semaphores s).list.blocked i ≠ t

structure Effect (kills : ThreadId → Prop) (why why' : ThreadId → Option Queue) (k k' : Kernel) :
    Prop where
  keeps : ∃ waiting, k'.Waits why' waiting
  wakes : ∀ t q, k.threadState t = some .blocked → k'.threadState t = some .ready →
    why t = some q → Justified kills k k' q t

variable {k} {k' : Kernel} {why why' : ThreadId → Option Queue} {kills : ThreadId → Prop}
  {waiting : Queue → Finset ThreadId} {t w : ThreadId} {q : Queue} {st : ProcessState}

theorem Waits.awake (h : k.Waits why waiting) (hs : k.threadState t = some st)
    (hb : st ≠ .blocked) : t ∉ waiting q :=
  h.discipline.not_waiting (by rw [hs]; simpa using hb) (by rw [hs]; simp)

theorem Justified.mono {kills' : ThreadId → Prop} (hk : kills t → kills' t)
    (h : Justified kills k k' q t) : Justified kills' k k' q t := by
  cases q with
  | mutex m => exact h.imp_right hk
  | semaphore s => exact h

/-- Nothing of the lists changes, and the states of threads that wait keep still. -/
theorem Effect.frame (h : k.Waits why waiting) (hl : ∀ q, q.InRange → k'.list q = k.list q)
    (hs : ∀ t, why' t = why t ∧ (k'.threadState t = k.threadState t ∨ k'.threadState t = none) ∨
      (∀ q, t ∉ waiting q) ∧ (k.threadState t).isSome ∧
        (k'.threadState t = some .blocked → why' t = none)) :
    Effect kills why why' k k' := by
  refine ⟨⟨waiting,fun q hq => hl q hq ▸ h.lists q hq,h.ranged,fun t ht => ?_,
    h.discipline.frame (fun t => ?_)⟩,fun t q hb hr hy => ?_⟩
  · rcases hs t with ⟨-,hx | hx⟩ | ⟨-,hx,-⟩
    · exact h.named t (hx ▸ ht)
    · rw [hx] at ht
      cases ht
    · exact h.named t hx
  · rcases hs t with ⟨hy,hx | hx⟩ | ⟨hn,-,hx⟩
    · exact Or.inl ⟨hy,Or.inl (by rw [hx]; exact ⟨Iff.rfl,Iff.rfl⟩)⟩
    · exact Or.inl ⟨hy,Or.inr ⟨hx,by rw [hx]; simp⟩⟩
    · exact Or.inr ⟨hn,hx⟩
  · rcases hs t with ⟨-,hx | hx⟩ | ⟨hn,-,-⟩
    · rw [hx,hb] at hr
      cases hr
    · rw [hx] at hr
      cases hr
    · exact absurd (h.discipline.listed q t hb hy) (hn q)

/-- Neither states nor lists nor reasons change. -/
theorem Effect.same (h : k.Waits why waiting) (hl : ∀ q, q.InRange → k'.list q = k.list q)
    (hp : k'.processes = k.processes) : Effect kills why why k k' :=
  Effect.frame h hl (fun t => Or.inl ⟨rfl,Or.inl (by rw [threadState,threadState,hp])⟩)

/-- One thread that is on no list is put on one, and becomes BLOCKED. -/
theorem Effect.enqueue (h : k.Waits why waiting) (hq : q.InRange) (hn : ∀ q, t ∉ waiting q)
    (hu : t.used) {l : BlockedList} (ha : (k.list q).add t = some l) (hl : k'.list q = l)
    (hl' : ∀ q', q' ≠ q → k'.list q' = k.list q')
    (hs : ∀ u, u ≠ t → k'.threadState u = k.threadState u)
    (ht : k'.threadState t = (k.threadState t).map (fun _ => .blocked)) :
    Effect kills why (Function.update why t (some q)) k k' := by
  refine ⟨⟨_,fun q' hq' => ?_,fun q' u hx => ?_,fun u hx => ?_,h.discipline.enqueue (q := q) hn ?_
    (fun u hut => by rw [hs u hut]; exact ⟨Iff.rfl,Iff.rfl⟩)⟩,fun u q' hb hr hy => ?_⟩
  · by_cases he : q' = q
    · subst he
      rw [hl,Function.update_self]
      exact (h.lists q' hq').add_some (hn q') hu ha
    · rw [hl' q' he,Function.update_of_ne he]
      exact h.lists q' hq'
  · by_cases he : q' = q
    · exact he ▸ hq
    · rw [Function.update_of_ne he] at hx
      exact h.ranged q' u hx
  · refine h.named u ?_
    by_cases hut : u = t
    · subst hut
      rwa [ht,Option.isSome_map] at hx
    · rwa [hs u hut] at hx
  · rw [ht]
    cases k.threadState t <;> simp
  · by_cases hut : u = t
    · subst hut
      rw [ht] at hr
      cases hx : k.threadState u <;> rw [hx] at hr <;> cases hr
    · rw [hs u hut,hb] at hr
      cases hr

/-- One thread is taken off a list and becomes READY. -/
theorem Effect.dequeue (h : k.Waits why waiting) (hm : t ∈ waiting q)
    (hl : (k'.list q).Holds ((waiting q).erase t))
    (hl' : ∀ q', q' ≠ q → k'.list q' = k.list q')
    (hs : ∀ u, u ≠ t → k'.threadState u = k.threadState u)
    (ht : k'.threadState t = (k.threadState t).map (fun _ => .ready))
    (hj : Justified kills k k' q t) : Effect kills why why k k' := by
  refine ⟨⟨_,fun q' hq' => ?_,fun q' u hu => ?_,fun u hu => ?_,h.discipline.dequeue (q := q) hm ?_
    (fun u hut => by rw [hs u hut]; exact ⟨Iff.rfl,Iff.rfl⟩)⟩,fun u q' hb hr hy => ?_⟩
  · by_cases he : q' = q
    · subst he
      rwa [Function.update_self]
    · rw [hl' q' he,Function.update_of_ne he]
      exact h.lists q' hq'
  · by_cases he : q' = q
    · exact he ▸ h.ranged q t hm
    · rw [Function.update_of_ne he] at hu
      exact h.ranged q' u hu
  · refine h.named u ?_
    by_cases hut : u = t
    · subst hut
      rwa [ht,Option.isSome_map] at hu
    · rwa [hs u hut] at hu
  · rw [ht]
    cases k.threadState t <;> simp
  · by_cases hut : u = t
    · subst hut
      obtain rfl := h.discipline.unique hm (h.discipline.listed q' u hb hy)
      exact hj
    · rw [hs u hut,hb] at hr
      cases hr

/-- `changeThreadState` sets the state of the thread it names, if there is one. -/
theorem changeThreadState_spec (hn : k.Named) (h : k.changeThreadState t st = some k') :
    k'.mutexes = k.mutexes ∧ k'.semaphores = k.semaphores ∧ k'.current = k.current ∧
      (∀ u, u ≠ t → k'.threadState u = k.threadState u) ∧
        k'.threadState t = (k.threadState t).map (fun _ => st) := by
  obtain ⟨ps,hps,rfl⟩ := Option.map_eq_some_iff.mp h
  refine ⟨rfl,rfl,rfl,?_⟩
  unfold Processes.changeThreadState at hps
  split at hps
  · rename_i hpid
    cases hps
    refine ⟨fun _ _ => rfl,?_⟩
    simp [threadState,Processes.threadState,Processes.thread?,hpid]
  · rename_i p hpid
    split at hps
    · split at hps
      · cases hps
      · cases hps
        exact ⟨fun u hu => Processes.threadState_set_of_ne hu,Processes.threadState_set_self⟩
    · rename_i hrange
      cases hps
      refine ⟨fun _ _ => rfl,?_⟩
      cases hx : k.threadState t with
      | none => rfl
      | some st' => exact absurd (hn t (by rw [hx]; rfl)).2 hrange

/-! ### The primitives -/

variable {m : ℤ} {x : Mutex} {y : Semaphore} {o : DownOutcome} {b : Bool}

@[simp] theorem list_setMutex_self : (k.setMutex m x).list (.mutex m) = x.list := by simp [list]

theorem list_setMutex_of_ne (h : q ≠ .mutex m) : (k.setMutex m x).list q = k.list q := by
  cases q with
  | mutex i =>
    have hi : i ≠ m := fun he => h (by rw [he])
    simp [list,setMutex_mutexes_of_ne k hi]
  | semaphore i => rfl

theorem list_setMutex (h : x.list = (k.mutexes m).list) : (k.setMutex m x).list q = k.list q := by
  by_cases hq : q = .mutex m
  · rw [hq,list_setMutex_self,h]
    rfl
  · exact list_setMutex_of_ne hq

@[simp] theorem list_setSemaphore_self : (k.setSemaphore m y).list (.semaphore m) = y.list := by
  simp [list]

theorem list_setSemaphore_of_ne (h : q ≠ .semaphore m) :
    (k.setSemaphore m y).list q = k.list q := by
  cases q with
  | mutex i => rfl
  | semaphore i =>
    have hi : i ≠ m := fun he => h (by rw [he])
    simp [list,setSemaphore,hi]

theorem list_setSemaphore (h : y.list = (k.semaphores m).list) :
    (k.setSemaphore m y).list q = k.list q := by
  by_cases hq : q = .semaphore m
  · rw [hq,list_setSemaphore_self,h]
    rfl
  · exact list_setSemaphore_of_ne hq

@[simp] theorem list_testAndSetLock : (k.testAndSetLock m).list q = k.list q := by
  rw [testAndSetLock]
  exact (list_setMutex (by rfl)).trans (list_setMutex (by rfl))

theorem list_of_tables (hm : k'.mutexes = k.mutexes) (hs : k'.semaphores = k.semaphores) :
    k'.list q = k.list q := by
  cases q with
  | mutex i => rw [list,list,hm]
  | semaphore i => rw [list,list,hs]

def slept (why : ThreadId → Option Queue) (o : DownOutcome) (t : ThreadId) (q : Queue) :
    ThreadId → Option Queue :=
  if o = .queued then Function.update why t (some q) else why

theorem mutexDown_effect (h : k.Waits why waiting) (hu : t.used)
    (hx : k.mutexDown m t = some (o,k')) (hn : o = .queued → ∀ q, t ∉ waiting q) :
    Effect kills why (slept why o t (.mutex m)) k k' := by
  rw [mutexDown] at hx
  split at hx
  · rename_i hv
    simp only at hx
    split at hx
    · split at hx
      · rename_i k₁ hadd
        obtain ⟨k₂,hk₂,he⟩ := Option.map_eq_some_iff.mp hx
        obtain ⟨rfl,rfl⟩ := Prod.mk.inj he
        obtain ⟨l,hl,rfl⟩ := Option.map_eq_some_iff.mp hadd
        have h₁ : ((k.testAndSetLock m).setMutex m
            { (k.testAndSetLock m).mutexes m with list := l }).Named := h.named
        obtain ⟨hm,hs,-,hother,hself⟩ := changeThreadState_spec h₁ hk₂
        rw [slept,if_pos rfl]
        refine Effect.enqueue h ⟨hv.1,hv.2.1⟩ (hn rfl) hu (l := l) ?_ ?_ (fun q hq => ?_) hother hself
        · simpa [list] using hl
        · rw [list_of_tables hm hs,list_setMutex_self]
        · rw [list_of_tables hm hs,list_setMutex_of_ne hq,list_testAndSetLock]
      · cases hx
        exact Effect.same h (fun q _ => list_testAndSetLock) rfl
    · cases hx
      exact Effect.same h (fun q _ => (list_setMutex (by rfl)).trans list_testAndSetLock) rfl
  · cases hx
    exact Effect.same h (fun _ _ => rfl) rfl

theorem unlockProcess_effect (h : k.Waits why waiting) (hr : Queue.InRange (.mutex m))
    (hx : k.unlockProcess m = some (b,k')) :
    (b = false → k' = k) ∧ Effect kills why why k k' := by
  simp only [unlockProcess] at hx
  split at hx
  · cases hx
    exact ⟨fun _ => rfl,Effect.same h (fun _ _ => rfl) rfl⟩
  · rename_i w l hp
    obtain ⟨k₁,hk₁,he⟩ := Option.map_eq_some_iff.mp hx
    obtain ⟨rfl,rfl⟩ := Prod.mk.inj he
    obtain ⟨hw,hl⟩ := (h.lists _ hr).pop_some hp
    obtain ⟨hm,hs,-,hother,hself⟩ := changeThreadState_spec (k := k.setMutex m _) h.named hk₁
    refine ⟨(fun hb => by cases hb),Effect.dequeue h hw ?_ (fun q hq => ?_) hother hself (Or.inl ?_)⟩
    · rw [list_of_tables hm hs,list_setMutex_self]
      exact hl
    · rw [list_of_tables hm hs,list_setMutex_of_ne hq]
    · rw [hm,setMutex_mutexes_self]

theorem mutexUp_effect (h : k.Waits why waiting) (hx : k.mutexUp m t = some k') :
    Effect kills why why k k' := by
  rw [mutexUp] at hx
  split at hx
  · rename_i hv
    obtain ⟨⟨b,k₁⟩,hk₁,rfl⟩ := Option.map_eq_some_iff.mp hx
    obtain ⟨hsame,heffect⟩ : _ ∧ Effect kills why why k k₁ :=
      unlockProcess_effect h ⟨hv.1.1,hv.1.2.1⟩ hk₁
    cases b with
    | true => exact heffect
    | false =>
      rw [hsame rfl]
      exact Effect.same h (fun q _ => list_setMutex (by rfl)) rfl
  · cases hx
    exact Effect.same h (fun _ _ => rfl) rfl

theorem waitBody_effect (h : k.Waits why waiting) (hr : Queue.InRange (.semaphore m))
    (hu : t.used) (hx : k.waitBody m t = some (o,k')) (hn : o = .queued → ∀ q, t ∉ waiting q) :
    Effect kills why (slept why o t (.semaphore m)) k k' := by
  obtain ⟨v,-,hx⟩ := Option.bind_eq_some_iff.mp hx
  simp only at hx
  split at hx
  · split at hx
    · rename_i k₁ hadd
      obtain ⟨k₂,hk₂,he⟩ := Option.map_eq_some_iff.mp hx
      obtain ⟨rfl,rfl⟩ := Prod.mk.inj he
      obtain ⟨l,hl,rfl⟩ := Option.map_eq_some_iff.mp hadd
      obtain ⟨hm,hs,-,hother,hself⟩ := changeThreadState_spec
        (k := (k.setSemaphore m _).setSemaphore m _) h.named hk₂
      rw [slept,if_pos rfl]
      refine Effect.enqueue h hr (hn rfl) hu (l := l) ?_ ?_ (fun q hq => ?_) hother hself
      · simpa [list] using hl
      · rw [list_of_tables hm hs,list_setSemaphore_self]
      · rw [list_of_tables hm hs,list_setSemaphore_of_ne hq,list_setSemaphore_of_ne hq]
    · cases hx
      exact Effect.same h (fun q _ => list_setSemaphore (by rfl)) rfl
  · cases hx
    exact Effect.same h (fun q _ => list_setSemaphore (by rfl)) rfl

/-- Taking a waiter off a semaphore's list is what the wake-up from it needs. -/
theorem justified_semaphore (h : (k.list (.semaphore m)).Holds (waiting (.semaphore m)))
    (hw : w ∈ waiting (.semaphore m))
    (hl : (k'.list (.semaphore m)).Holds ((waiting (.semaphore m)).erase w)) :
    Justified kills k k' (.semaphore m) w := by
  refine ⟨h.slot w hw,fun i hi he => ?_⟩
  have hmem := hl.entry i hi (he ▸ h.used w hw)
  have he' : (k'.list (.semaphore m)).blocked i = w := he
  rw [he'] at hmem
  exact Finset.notMem_erase w _ hmem

theorem signalBody_effect (h : k.Waits why waiting) (hr : Queue.InRange (.semaphore m))
    (hx : k.signalBody m = some k') : Effect kills why why k k' := by
  obtain ⟨⟨b,k₁⟩,hk₁,hx⟩ := Option.bind_eq_some_iff.mp hx
  obtain ⟨v,-,rfl⟩ := Option.map_eq_some_iff.mp hx
  simp only [unlockSemaphoreProcess] at hk₁
  split at hk₁
  · cases hk₁
    exact Effect.same h (fun q _ => list_setSemaphore (by rfl)) rfl
  · rename_i w l hp
    obtain ⟨k₂,hk₂,he⟩ := Option.map_eq_some_iff.mp hk₁
    obtain ⟨rfl,rfl⟩ := Prod.mk.inj he
    obtain ⟨hw,hl⟩ := (h.lists _ hr).pop_some hp
    obtain ⟨hm,hs,-,hother,hself⟩ := changeThreadState_spec (k := k.setSemaphore m _) h.named hk₂
    have hlist : ((k₂.setSemaphore m { k₂.semaphores m with value := v }).list (.semaphore m)).Holds
        ((waiting (.semaphore m)).erase w) := by
      rw [list_setSemaphore (by rfl),list_of_tables hm hs,list_setSemaphore_self]
      exact hl
    refine Effect.dequeue h hw hlist (fun q hq => ?_) hother hself
      (justified_semaphore (h.lists _ hr) hw hlist)
    rw [list_setSemaphore (by rfl),list_of_tables hm hs,list_setSemaphore_of_ne hq]

end Kernel
end ComplexOS
