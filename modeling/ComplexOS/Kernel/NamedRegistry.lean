import ComplexOS.Kernel.SemaphoreNames

/-! # The directories from the boot on

The boot leaves a directory with the mutexes of the kernel itself and an empty one for the
semaphores. From there calls are served exactly as long as they are calm.
-/
namespace ComplexOS
open Kernel Call Directory Runs

namespace Kernel

def bootNames : List (ℤ × Name) :=
  [(0,⟨buddyName,by decide⟩),(1,⟨semName,by decide⟩),(2,⟨channelName,by decide⟩)]

theorem bootMutex_list {i : ℤ} : (bootMutex i).list = clearedMutex.list := by
  unfold bootMutex
  split
  · rfl
  split
  · rfl
  split
  · rfl
  · rfl

theorem bootMutex_value {i : ℤ} : (bootMutex i).value = unlocked := by
  unfold bootMutex
  split
  · rfl
  split
  · rfl
  split
  · rfl
  · rfl

end Kernel

namespace Registry.Booted
variable {s : Registry} {i : ℤ} {n : Name}

theorem quiet (h : s.Booted) : s.kernel.Quiet := by
  refine ⟨h.guarded,fun i hi => ?_⟩
  rw [h.mutexes i hi,bootMutex_list]
  rfl

theorem open_mutex (h : s.Booted) (hi : InMutexes i) : (s.kernel.mutexes i).value ≠ locked := by
  rw [h.mutexes i hi,bootMutex_value]
  decide

/-- A slot bears what the boot has left in it. -/
theorem bears_slot (h : s.Booted) (hi : InMutexes i) (hc : (bootMutex i).creator.pid ≠ notUsed)
    (hs : Spells (bootMutex i).name n.1) : s.kernel.MutexBears i n := by
  rw [← h.mutexes i hi] at hc hs
  exact ⟨hi,hc,hs⟩

theorem bears_bootNames (h : s.Booted) {x : ℤ × Name} (hx : x ∈ bootNames) :
    s.kernel.MutexBears x.1 x.2 := by
  simp only [bootNames,List.mem_cons,List.not_mem_nil,or_false] at hx
  rcases hx with rfl | rfl | rfl <;>
    exact h.bears_slot (by decide) (by decide) (spells_copied.mpr rfl)

theorem mutexBears (h : s.Booted) : s.kernel.MutexBears i n ↔ (i,n) ∈ bootNames := by
  constructor
  · intro hb
    have hrange : i = 0 ∨ i = 1 ∨ i = 2 := by
      by_contra hne
      have hu := hb.2.1
      rw [h.mutexes i hb.1,bootMutex,if_neg (by tauto),if_neg (by tauto),if_neg (by tauto)] at hu
      exact hu rfl
    have hentry : ∃ x ∈ bootNames, x.1 = i := by
      rcases hrange with rfl | rfl | rfl <;> simp [bootNames]
    obtain ⟨⟨j,m⟩,hm,rfl⟩ := hentry
    rw [hb.unique (h.bears_bootNames hm)]
    exact hm
  · exact fun hm => h.bears_bootNames hm

theorem filed (h : s.Booted) : s.kernel.Filed bootNames := by
  refine ⟨h.quiet,⟨fun _ _ => h.mutexBears,?_⟩,?_,fun _ => ?_⟩
  · intro i j n hi hj
    simp only [bootNames,List.mem_cons,List.not_mem_nil,or_false,Prod.mk.injEq] at hi hj
    rcases hi with ⟨rfl,rfl⟩ | ⟨rfl,rfl⟩ | ⟨rfl,rfl⟩ <;>
      rcases hj with ⟨rfl,hx⟩ | ⟨rfl,hx⟩ | ⟨rfl,hx⟩ <;> first | rfl | exact absurd hx (by decide)
  · rw [h.liveMutexes,h.usedMutexes]
    decide
  · unfold Kernel.CachedFree
    rw [h.firstMutex,h.mutexes 3 (by decide)]
    exact ⟨by decide,rfl⟩

theorem semaphoresFiled (h : s.Booted) : s.SemaphoresFiled [] := by
  refine ⟨h.quiet,h.semaphoreMutex,fun i hi => ?_,⟨fun i n => ?_,?_⟩,?_,fun _ => ?_⟩
  · rw [h.semaphores i hi]
    rfl
  · refine ⟨fun hb => ?_,fun hx => by cases hx⟩
    have hu := hb.2.1
    rw [h.semaphores i hb.1] at hu
    exact absurd rfl hu
  · intro i j n hi
    cases hi
  · have hnone : s.kernel.liveSemaphores = 0 := by
      unfold Kernel.liveSemaphores
      rw [Finset.card_eq_zero]
      apply Finset.filter_false_of_mem
      intro i hi hu
      replace hu : (s.kernel.semaphores i).creator.pid ≠ notUsed := hu
      rw [h.semaphores i (inSemaphores_nat (Finset.mem_range.mp hi))] at hu
      exact hu rfl
    rw [hnone,h.usedSemaphores]
    rfl
  · unfold Registry.CachedFree
    rw [h.firstSemaphore,h.semaphores 0 (by decide)]
    exact ⟨by decide,rfl⟩

end Registry.Booted

namespace Named
open NamedPool Registry
variable {s : Registry}

/-- From the boot on the calls of one table are served exactly as long as they are calm. -/
theorem named_registry (hs : main static = .ok ((),s)) (cs : List NamedCall)
    (hp : ∀ c ∈ cs, 0 < c.caller.pid) :
    (Along (step mutexPool) (Served mutexPool) ⟨s,bootNames⟩ cs ↔
      Along (step mutexPool) MutexCalm ⟨s,bootNames⟩ cs) ∧
    (Along (step semaphorePool) (Served semaphorePool) ⟨s,[]⟩ cs ↔
      Along (step semaphorePool) SemaphoreCalm ⟨s,[]⟩ cs) := by
  obtain ⟨s₁,hs₁,hb⟩ := main_booted
  rw [hs₁] at hs
  cases hs
  constructor
  · apply along_iff (I := fun s => s.registry.kernel.Filed s.names) _ _ hb.filed hp
    · intro s c hI hpos
      refine ⟨fun h => ?_,fun hc => (mutex_calm hI hpos hc).1⟩
      by_contra hc
      exact mutex_not_served hI hpos hc h
    · exact fun s c s' hI hpos hc hs => (mutex_calm hI hpos hc).2 s' hs
  · apply along_iff (I := fun s => s.registry.SemaphoresFiled s.names) _ _ hb.semaphoresFiled hp
    · intro s c hI hpos
      refine ⟨fun h => ?_,fun hc => (semaphore_calm hI hpos hc).1⟩
      by_contra hc
      exact semaphore_not_served hI hpos hc h
    · exact fun s c s' hI hpos hc hs => (semaphore_calm hI hpos hc).2 s' hs

def nameM : Name := ⟨[109],by decide⟩
def processOne : ThreadId := ⟨1,0⟩

/-- A first mutex is got at slot 3, and `adminMutex` is free again. -/
theorem first_get (hb : s.Booted) : ∃ s₁ : Named,
    step mutexPool ⟨s,bootNames⟩ (.get nameM processOne) = some s₁ ∧
    (3,nameM) ∈ s₁.names ∧ s₁.registry.kernel.Filed s₁.names ∧
    (s₁.registry.kernel.mutexes adminMutex).value ≠ locked ∧
    MutexCalm ⟨s,bootNames⟩ (.get nameM processOne) := by
  have hopen := hb.open_mutex (i := adminMutex) (by decide)
  have hcalm : MutexCalm ⟨s,bootNames⟩ (.get nameM processOne) := by
    refine ⟨hopen,fun _ => ⟨?_,?_⟩⟩
    · rw [hb.usedMutexes]
      decide
    · rw [hb.firstMutex,hb.mutexes 3 (by decide)]
      rfl
  have hmiss : s.kernel.findMutex nameM.1 = none := by
    cases hi : s.kernel.findMutex nameM.1 with
    | none => rfl
    | some i =>
      have hm := hb.filed.find.mp hi
      simp only [bootNames,List.mem_cons,List.not_mem_nil,or_false,Prod.mk.injEq] at hm
      rcases hm with ⟨-,hx⟩ | ⟨-,hx⟩ | ⟨-,hx⟩ <;> exact absurd hx (by decide)
  obtain ⟨r,k,hk⟩ : ∃ r k, s.kernel.createMutex 1 nameM.1 0 = (r,k) := ⟨_,_,rfl⟩
  have hr : r = some 3 := by
    obtain ⟨-,hx,-⟩ | ⟨hx,-⟩ := createMutex_cases hk
    · exact absurd ⟨hb.usedMutexes.trans_lt (by decide),nameM.2.2.2⟩ hx
    · rw [hx,hb.firstMutex]
  subst hr
  have hcall := getMutex_miss hb.guarded hopen (hb.quiet.pop (by decide)) hmiss hk
  have hs₁ := step_of_ok (P := mutexPool) (s := ⟨s,bootNames⟩) (c := .get nameM processOne) hcall
  have hm : (3,nameM) ∈ record bootNames (.get nameM processOne) (some 3) := mem_record
  refine ⟨_,hs₁,hm,(mutex_calm hb.filed (by decide) hcalm).2 _ hs₁,?_,hcalm⟩
  show ((k.lockSlot adminMutex unlocked _).mutexes adminMutex).value ≠ locked
  rw [lockSlot_self]
  exact (by decide : unlocked ≠ locked)

/-- A mutex is got and released. -/
theorem named_registry_release : ∃ s, main static = .ok ((),s) ∧
    Along (step mutexPool) (Served mutexPool) ⟨s,bootNames⟩
      [.get nameM processOne,.release 3 processOne] := by
  obtain ⟨s,hs,hb⟩ := main_booted
  obtain ⟨s₁,hs₁,-,-,hopen,hcalm⟩ := first_get hb
  refine ⟨s,hs,(named_registry hs _ (by decide)).1.mpr ⟨hcalm,fun t ht => ?_⟩⟩
  obtain rfl : s₁ = t := Option.some.inj (hs₁.symm.trans ht)
  exact ⟨⟨hopen,trivial⟩,fun _ _ => trivial⟩

/-- The second call for a name answers the same id and keeps the lock, so the third waits. -/
theorem named_registry_fails : ∃ s, main static = .ok ((),s) ∧
    ¬ Along (step mutexPool) (Served mutexPool) ⟨s,bootNames⟩
      [.get nameM processOne,.get nameM processOne,.get nameM processOne] := by
  obtain ⟨s,hs,hb⟩ := main_booted
  obtain ⟨s₁,hs₁,hm,hfiled,hopen,-⟩ := first_get hb
  refine ⟨s,hs,fun h => ?_⟩
  have hhit : getMutex nameM.1 1 0 s₁.registry = _ :=
    getMutex_hit hfiled.guarded hopen (hfiled.find.mpr hm)
  have hs₂ := step_of_ok (P := mutexPool) (s := s₁) (c := .get nameM processOne) hhit
  have hthird := ((h.2 s₁ hs₁).2 _ hs₂).1
  have hcalm : MutexCalm s₁ (.get nameM processOne) := by
    refine ⟨hopen,fun hx => ?_⟩
    rw [hfiled.find.mpr hm] at hx
    cases hx
  have hfiled₂ := (mutex_calm hfiled (by decide) hcalm).2 _ hs₂
  refine mutex_not_served hfiled₂ (by decide) (fun hc => hc.1 ?_) hthird
  show ((s₁.registry.kernel.lockSlot adminMutex locked _).mutexes adminMutex).value = locked
  rw [lockSlot_self]

end Named
end ComplexOS
