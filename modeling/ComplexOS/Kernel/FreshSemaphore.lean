import ComplexOS.Kernel.NamedRegistry

/-! # What a new semaphore starts with

The pieces of code that write to the table of semaphores, by any threads in any order. A
creation takes its slot before it has a mutex, and a slot is cleared at boot only.
-/
namespace ComplexOS
open Kernel Call Runs SlotTable

inductive SlotStep
  /-- A call that comes back. -/
  | createSemaphore (pid : ℤ) (name : List UInt8) (thread : ℤ)
  /-- As far as a creation gets that has to wait for `adminMutex`. -/
  | claimSemaphore (pid : ℤ) (name : List UInt8) (thread : ℤ)
  /-- The end of a creation that had to wait. -/
  | completeSemaphore (mutex : ℤ)
  | wait (semaphore : ℤ) (t : ThreadId)
  | signal (semaphore : ℤ)
  | setValue (semaphore value : ℤ)
  | releaseSemaphore (semaphore : ℤ)
  | removeBlocked (v : Victim) (semaphore : ℤ) (j : ℕ)
  /-- What happens to the mutexes and to the rest of the kernel. -/
  | table (l : TableStep)

namespace Kernel
variable {k k' : Kernel} {semaphore : ℤ} {t : ThreadId} {o : DownOutcome} {v : Victim} {j : ℕ}

/-- A piece of code has written to one semaphore, and not to its name or its creator. -/
structure WritesSemaphore (semaphore : ℤ) (k k' : Kernel) : Prop where
  slot : ∃ x, k'.semaphores = Function.update k.semaphores semaphore x ∧
    x.creator = (k.semaphores semaphore).creator ∧
    ((k.semaphores semaphore).list.Counted → x.list.Counted)
  mutexes : k'.mutexes = k.mutexes
  firstAvailableMutex : k'.firstAvailableMutex = k.firstAvailableMutex

theorem changeThreadState_tables {st : ProcessState} (h : k.changeThreadState t st = some k') :
    k'.semaphores = k.semaphores ∧ k'.mutexes = k.mutexes ∧
      k'.firstAvailableMutex = k.firstAvailableMutex := by
  obtain ⟨hm,hr⟩ := changeThreadState_table h
  exact ⟨hr.semaphores,hm,hr.firstAvailableMutex⟩

theorem waitBody_writes (ht : t.used) (h : k.waitBody semaphore t = some (o,k')) :
    WritesSemaphore semaphore k k' := by
  obtain ⟨value,-,h⟩ := Option.bind_eq_some_iff.mp h
  have hself := setSemaphore_semaphores_self k semaphore
    { k.semaphores semaphore with value := value }
  split at h
  · simp only at h
    split at h
    · rename_i k₁ hadd
      obtain ⟨l,hl,rfl⟩ := Option.map_eq_some_iff.mp hadd
      obtain ⟨k₂,hk₂,he⟩ := Option.map_eq_some_iff.mp h
      cases he
      obtain ⟨hs,hm,hf⟩ := changeThreadState_tables hk₂
      rw [hself] at hl hs
      refine ⟨⟨{ k.semaphores semaphore with value := value, list := l },?_,rfl,fun hc => ?_⟩,hm,hf⟩
      · rw [hs]
        exact Function.update_idem _ _ _
      · exact hc.add ht hl
    · cases h
      exact ⟨⟨_,rfl,rfl,id⟩,rfl,rfl⟩
  · cases h
    exact ⟨⟨_,rfl,rfl,id⟩,rfl,rfl⟩

theorem signalBody_writes (h : k.signalBody semaphore = some k') : WritesSemaphore semaphore k k' := by
  obtain ⟨⟨b,k₁⟩,hu,h⟩ := Option.bind_eq_some_iff.mp h
  obtain ⟨value,-,rfl⟩ := Option.map_eq_some_iff.mp h
  simp only [unlockSemaphoreProcess] at hu
  split at hu
  · cases hu
    exact ⟨⟨_,rfl,rfl,id⟩,rfl,rfl⟩
  · rename_i w l hp
    obtain ⟨k₂,hk₂,he⟩ := Option.map_eq_some_iff.mp hu
    obtain ⟨-,rfl⟩ := Prod.mk.inj he
    obtain ⟨hs,hm,hf⟩ := changeThreadState_tables hk₂
    have hself : k₂.semaphores semaphore = { k.semaphores semaphore with list := l } := by
      rw [hs]
      exact setSemaphore_semaphores_self _ _ _
    refine ⟨⟨{ k.semaphores semaphore with value := value, list := l },?_,rfl,fun hc => hc.pop hp⟩,
      hm,hf⟩
    show Function.update k₂.semaphores semaphore { k₂.semaphores semaphore with value := value } = _
    rw [hself,hs]
    exact Function.update_idem _ _ _

theorem removeBlockedFromSemaphore_writes (hj : j < maxBlocked)
    (h : k.removeBlockedFromSemaphore v semaphore j = some k') :
    (¬ v.Covers ((k.semaphores semaphore).list.blocked j) ∧ k' = k) ∨
      (((k.semaphores semaphore).list.blocked j).used ∧ WritesSemaphore semaphore k k') := by
  simp only [removeBlockedFromSemaphore] at h
  split at h
  · rename_i hc
    obtain ⟨value,-,h⟩ := Option.bind_eq_some_iff.mp h
    obtain ⟨hs,hm,hf⟩ := changeThreadState_tables h
    have hu : ((k.semaphores semaphore).list.blocked j).used := fun he => v.used (hc.1.symm.trans he)
    exact Or.inr ⟨hu,⟨_,hs,rfl,fun hcount => hcount.erase hj hu BlockedList.not_used_unused⟩,hm,hf⟩
  · rename_i hc
    cases h
    exact Or.inl ⟨hc,rfl⟩

theorem liveSemaphores_used (h : ∀ i, InSemaphores i →
    ((k'.semaphores i).creator.pid = notUsed ↔ (k.semaphores i).creator.pid = notUsed)) :
    k'.liveSemaphores = k.liveSemaphores := by
  unfold liveSemaphores
  rw [occupied_congr]
  intro i hi
  exact not_congr (h i (inSemaphores_nat hi))

end Kernel

namespace Registry
namespace SemaphoreTable
variable (s : Registry)

def step : SlotStep → Option Registry
  | .createSemaphore pid name thread =>
    if 0 < pid ∧ 0 ∉ name then (createSemaphore pid name thread s).toOption.map Prod.snd else none
  | .claimSemaphore pid name thread => some (claimSemaphore pid name thread s)
  | .completeSemaphore mutex => some (completeSemaphore mutex s)
  | .wait semaphore t =>
    if InSemaphores semaphore ∧ t.used then
      (s.kernel.waitBody semaphore t).map (fun x => { s with kernel := x.2 })
    else none
  | .signal semaphore =>
    if InSemaphores semaphore then
      (s.kernel.signalBody semaphore).map (fun k => { s with kernel := k })
    else none
  | .setValue semaphore value =>
    if InSemaphores semaphore then some (writeValue semaphore value s) else none
  | .releaseSemaphore semaphore =>
    if InSemaphores semaphore then
      some { s with kernel := s.kernel.disownSemaphore semaphore }
    else none
  | .removeBlocked v semaphore j =>
    if InSemaphores semaphore ∧ j < maxBlocked then
      (s.kernel.removeBlockedFromSemaphore v semaphore j).map (fun k => { s with kernel := k })
    else none
  | .table l =>
    if l.ByProcess then
      (MutexTable.step ⟨s.kernel,∅⟩ l).map (fun t =>
        { s with kernel := { t.kernel with semaphores := s.kernel.semaphores } })
    else none

/-- Semaphores are released with value `0` and nobody blocked, they are in use while their
calls run, and a creation that has taken a slot gets its mutex without a wait. -/
def Calm : SlotStep → Prop
  | .createSemaphore _ name _ => s.usedSemaphores < maxSemaphores → name.length < maxName →
      s.kernel.findMutex name = none → s.kernel.usedMutexes < maxMutexes
  | .claimSemaphore _ _ _ => False
  | .completeSemaphore _ => False
  | .wait semaphore _ => s.kernel.isValidSemaphore semaphore
  | .signal semaphore => s.kernel.isValidSemaphore semaphore
  | .setValue semaphore _ => s.kernel.isValidSemaphore semaphore
  | .releaseSemaphore semaphore => (s.kernel.semaphores semaphore).value = 0 ∧
      (s.kernel.semaphores semaphore).list.blockedQuantity = 0
  | .removeBlocked _ _ _ => True
  | .table _ => True

instance : ∀ l, Decidable (Calm s l)
  | .createSemaphore _ name _ => inferInstanceAs (Decidable (s.usedSemaphores < maxSemaphores →
      name.length < maxName → s.kernel.findMutex name = none → s.kernel.usedMutexes < maxMutexes))
  | .claimSemaphore _ _ _ | .completeSemaphore _ => isFalse id
  | .wait semaphore _ | .signal semaphore | .setValue semaphore _ =>
    inferInstanceAs (Decidable (s.kernel.isValidSemaphore semaphore))
  | .releaseSemaphore semaphore => inferInstanceAs (Decidable (
      (s.kernel.semaphores semaphore).value = 0 ∧
        (s.kernel.semaphores semaphore).list.blockedQuantity = 0))
  | .removeBlocked _ _ _ | .table _ => isTrue trivial

end SemaphoreTable

structure Tidy (s : Registry) : Prop where
  guarded : s.kernel.Guarded
  counted : ∀ i, InSemaphores i → (s.kernel.semaphores i).list.Counted
  free : ∀ i, InSemaphores i → (s.kernel.semaphores i).creator.pid = notUsed →
    (s.kernel.semaphores i).value = 0 ∧ (s.kernel.semaphores i).list.blockedQuantity = 0
  count : (s.kernel.liveSemaphores : ℤ) ≤ s.usedSemaphores
  cached : s.usedSemaphores < maxSemaphores → s.CachedFree

variable {s s' : Registry} {k : Kernel} {semaphore pid thread : ℤ} {name : List UInt8} {r : Option ℤ}
  {t : ThreadId} {l : SlotStep}

namespace Tidy

theorem congr (h : s.Tidy) (hg : k.Guarded) (hs : k.semaphores = s.kernel.semaphores) :
    Tidy { s with kernel := k } := by
  refine ⟨hg,fun i hi => ?_,fun i hi hx => ?_,?_,fun hu => ?_⟩
  · simp only [hs]
    exact h.counted i hi
  · simp only [hs] at hx ⊢
    exact h.free i hi hx
  · show (k.liveSemaphores : ℤ) ≤ s.usedSemaphores
    rw [liveSemaphores_congr hs]
    exact h.count
  · unfold CachedFree
    simp only [hs]
    exact h.cached hu

/-- A write to a semaphore in use. -/
theorem written (h : s.Tidy) (hw : WritesSemaphore semaphore s.kernel k)
    (hu : (s.kernel.semaphores semaphore).creator.pid ≠ notUsed) :
    Tidy { s with kernel := k } := by
  obtain ⟨⟨x,hs,hc,hcount⟩,hm,hf⟩ := hw
  have hself : k.semaphores semaphore = x := by
    rw [hs]
    exact Function.update_self _ _ _
  have hother : ∀ i, i ≠ semaphore → k.semaphores i = s.kernel.semaphores i := by
    intro i hi
    rw [hs,Function.update_of_ne hi]
  have hcreator : ∀ i, (k.semaphores i).creator = (s.kernel.semaphores i).creator := by
    intro i
    by_cases he : i = semaphore
    · rw [he,hself,hc]
    · rw [hother i he]
  have hguarded : k.Guarded := h.guarded.congr (fun i _ _ => by rw [hm]) hf
  refine ⟨hguarded,fun i hi => ?_,fun i hi hx => ?_,?_,fun hu => ?_⟩
  · show (k.semaphores i).list.Counted
    by_cases he : i = semaphore
    · rw [he,hself]
      exact hcount (h.counted _ (he ▸ hi))
    · rw [hother i he]
      exact h.counted i hi
  · replace hx : (k.semaphores i).creator.pid = notUsed := hx
    rw [hcreator] at hx
    have he : i ≠ semaphore := fun he => hu (he ▸ hx)
    show (k.semaphores i).value = 0 ∧ (k.semaphores i).list.blockedQuantity = 0
    rw [hother i he]
    exact h.free i hi hx
  · have hlive : k.liveSemaphores = s.kernel.liveSemaphores :=
      liveSemaphores_used (fun i _ => by rw [hcreator])
    show (k.liveSemaphores : ℤ) ≤ s.usedSemaphores
    rw [hlive]
    exact h.count
  · unfold CachedFree
    simp only [hcreator]
    exact h.cached hu

/-- A creation writes its name and its creator to a slot that is not in use. -/
theorem created (h : s.Tidy) (ht : t.used) (hg : s'.kernel.Guarded)
    (hc : CreatedSemaphore s name t s') : s'.Tidy := by
  obtain ⟨hroom,⟨mutex,hslots⟩,hused,hfirst,hlive⟩ := hc
  obtain ⟨hi,hfree⟩ := h.cached hroom
  have hlive := hlive ht ⟨hi,hfree⟩
  have hcount := h.count
  have hself : s'.kernel.semaphores s.firstAvailableSemaphore = _ :=
    (congrFun hslots _).trans (Function.update_self _ _ _)
  have hother : ∀ i, i ≠ s.firstAvailableSemaphore →
      s'.kernel.semaphores i = s.kernel.semaphores i := by
    intro i hi
    rw [hslots,Function.update_of_ne hi]
  refine ⟨hg,fun i hi => ?_,fun i hi hx => ?_,by omega,fun hu => ?_⟩
  · by_cases he : i = s.firstAvailableSemaphore
    · rw [he,hself]
      exact h.counted _ (he ▸ hi)
    · rw [hother i he]
      exact h.counted i hi
  · have he : i ≠ s.firstAvailableSemaphore := by
      rintro rfl
      rw [hself] at hx
      exact ht hx
    rw [hother i he] at hx ⊢
    exact h.free i hi hx
  · unfold CachedFree
    rw [hfirst]
    obtain ⟨-,hall⟩ | hfree := getNextSemaphoreAvailable_spec (k := s'.kernel)
    · have hfull := liveSemaphores_full hall
      omega
    · exact hfree

theorem released (h : s.Tidy) (hv : (s.kernel.semaphores semaphore).value = 0)
    (hq : (s.kernel.semaphores semaphore).list.blockedQuantity = 0) :
    Tidy { s with kernel := s.kernel.disownSemaphore semaphore } := by
  obtain ⟨k,hk⟩ : ∃ k, s.kernel.disownSemaphore semaphore = k := ⟨_,rfl⟩
  have hs : k.semaphores = Function.update s.kernel.semaphores semaphore
      { s.kernel.semaphores semaphore with
        creator := { (s.kernel.semaphores semaphore).creator with pid := notUsed } } := by
    rw [← hk]
    rfl
  have hself : k.semaphores semaphore = _ := (congrFun hs _).trans (Function.update_self _ _ _)
  have hother : ∀ i, i ≠ semaphore → k.semaphores i = s.kernel.semaphores i := by
    intro i hi
    rw [hs,Function.update_of_ne hi]
  have hle : k.liveSemaphores ≤ s.kernel.liveSemaphores := hk ▸ liveSemaphores_disown_le
  have hcount := h.count
  have hguarded : k.Guarded := by
    rw [← hk]
    exact h.guarded.congr (fun _ _ _ => rfl) rfl
  rw [hk]
  refine ⟨hguarded,fun i hi => ?_,fun i hi hx => ?_,?_,fun hu => ?_⟩
  · show (k.semaphores i).list.Counted
    by_cases he : i = semaphore
    · rw [he,hself]
      exact h.counted _ (he ▸ hi)
    · rw [hother i he]
      exact h.counted i hi
  · show (k.semaphores i).value = 0 ∧ (k.semaphores i).list.blockedQuantity = 0
    by_cases he : i = semaphore
    · rw [he,hself]
      exact ⟨hv,hq⟩
    · replace hx : (k.semaphores i).creator.pid = notUsed := hx
      rw [hother i he] at hx ⊢
      exact h.free i hi hx
  · show (k.liveSemaphores : ℤ) ≤ s.usedSemaphores
    omega
  · obtain ⟨hi,hf⟩ := h.cached hu
    refine ⟨hi,?_⟩
    show (k.semaphores s.firstAvailableSemaphore).creator.pid = _
    by_cases he : s.firstAvailableSemaphore = semaphore
    · rw [he,hself]
    · rw [hother _ he]
      exact hf

end Tidy

theorem clearedSemaphore_counted : clearedSemaphore.list.Counted := by
  have hempty : occupied ThreadId.used maxBlocked clearedSemaphore.list.blocked = ∅ := by
    apply Finset.filter_false_of_mem
    intro j hj hu
    have hself : clearedSemaphore.list.blocked j = ThreadId.unused := if_pos (Finset.mem_range.mp hj)
    rw [hself] at hu
    exact BlockedList.not_used_unused hu
  unfold BlockedList.Counted
  rw [hempty]
  rfl

theorem Booted.tidy (h : s.Booted) : s.Tidy := by
  have hfiled := h.semaphoresFiled
  refine ⟨h.guarded,fun i hi => ?_,fun i hi _ => ?_,hfiled.count,hfiled.cached⟩
  · rw [h.semaphores i hi]
    exact clearedSemaphore_counted
  · rw [h.semaphores i hi]
    exact ⟨rfl,rfl⟩

/-- On guarded tables a creation that comes back has failed to get its mutex only if the
name was new and the counter had run out. -/
theorem getMutex_none (hg : s.kernel.Guarded) (h : getMutex name pid thread s = .ok (r,s')) :
    r = none → s.kernel.findMutex name = none ∧
      ¬ (s.kernel.usedMutexes < maxMutexes ∧ name.length < maxName) := by
  rintro rfl
  have hopen : (s.kernel.mutexes adminMutex).value ≠ locked := by
    intro hl
    rw [getMutex_waits hg hl] at h
    cases h
  obtain ⟨k,hk,⟨i,-,hx,-⟩ | ⟨hf,k₁,k₂,hc,-⟩⟩ := getMutex_ok h
  · cases hx
  · rw [hg.mutexDown (by decide) (by decide) hopen] at hk
    obtain ⟨-,rfl⟩ := Prod.mk.inj (Option.some.inj hk)
    rw [findMutex_lockSlot] at hf
    obtain ⟨-,hx,-⟩ | ⟨hx,-⟩ := createMutex_cases hc
    · exact ⟨hf,hx⟩
    · cases hx

theorem createSemaphore_guarded (hg : s.kernel.Guarded) (hp : 0 < pid) (hn : 0 ∉ name)
    (h : createSemaphore pid name thread s = .ok (r,s')) : s'.kernel.Guarded := by
  have hne : pid ≠ notUsed := by
    have hnot : notUsed = -1 := rfl
    omega
  have hreach : Reaches (TableStep.By pid (fun _ => True)) s.kernel s'.kernel :=
    createSemaphore_reaches trivial hne hn h
  exact (hreach.invariant (I := fun t => t.kernel.Guarded)
    (fun _ _ _ hI hl ht => hI.step (hl.byProcess hp) ht) ∅ hg).choose_spec

/-- Failures that the test at the start has not caught leave a claimed slot behind. -/
theorem createSemaphore_cases
    (h : createSemaphore pid name thread s = .ok (r,s')) :
    (r = some s.firstAvailableSemaphore ∧ CreatedSemaphore s name ⟨pid,thread⟩ s') ∨
      (r = none ∧ ¬ (s.usedSemaphores < maxSemaphores ∧ name.length < maxName) ∧ s' = s) ∨
      (r = none ∧ s.usedSemaphores < maxSemaphores ∧ name.length < maxName ∧
        s'.kernel.semaphores = (claimSemaphore pid name thread s).kernel.semaphores ∧
        ∃ s₁, getMutex name pid thread (claimSemaphore pid name thread s) = .ok (none,s₁)) := by
  cases r with
  | some i =>
    obtain ⟨rfl,hc⟩ := createSemaphore_created h
    exact Or.inl ⟨rfl,hc⟩
  | none =>
    obtain ⟨hx,-,rfl⟩ | ⟨hu,hn,m,s₁,hg,⟨rfl,-,rfl⟩ | ⟨mutex,-,hx,-⟩⟩ := createSemaphore_ok h
    · exact Or.inr (Or.inl ⟨rfl,hx,rfl⟩)
    · exact Or.inr (Or.inr ⟨rfl,hu,hn,getMutex_semaphores hg,_,hg⟩)
    · cases hx

theorem used_of_pos {pid : ℤ} (hp : 0 < pid) (thread : ℤ) : ThreadId.used ⟨pid,thread⟩ := by
  intro hx
  have hnot : notUsed = -1 := rfl
  have hpid : pid = notUsed := hx
  omega

namespace SemaphoreTable

theorem step_tidy (h : s.Tidy) (hc : Calm s l) (hs : step s l = some s') : s'.Tidy := by
  cases l with
  | createSemaphore pid name thread =>
    obtain ⟨⟨hp,hn⟩,hs⟩ := Option.ite_none_right_eq_some.mp hs
    obtain ⟨⟨r,s₁⟩,hx,rfl⟩ := Option.map_eq_some_iff.mp hs
    have hcall : createSemaphore pid name thread s = .ok (r,s₁) := ok_of_toOption hx
    have hg := createSemaphore_guarded h.guarded hp hn hcall
    obtain ⟨-,hcreated⟩ | ⟨-,-,rfl⟩ | ⟨-,hu,hlen,-,s₂,hnone⟩ := createSemaphore_cases hcall
    · exact h.created (used_of_pos hp _) hg hcreated
    · exact h
    · have hclaim : (claimSemaphore pid name thread s).kernel.Guarded :=
        h.guarded.congr (fun _ _ _ => rfl) rfl
      obtain ⟨hf,hx⟩ := getMutex_none hclaim hnone rfl
      exact absurd ⟨hc hu hlen hf,hlen⟩ hx
  | claimSemaphore pid name thread => exact hc.elim
  | completeSemaphore mutex => exact hc.elim
  | wait semaphore t =>
    obtain ⟨⟨hi,ht⟩,hs⟩ := Option.ite_none_right_eq_some.mp hs
    obtain ⟨⟨o,k⟩,hk,rfl⟩ := Option.map_eq_some_iff.mp hs
    exact h.written (waitBody_writes ht hk) hc.2.2
  | signal semaphore =>
    obtain ⟨hi,hs⟩ := Option.ite_none_right_eq_some.mp hs
    obtain ⟨k,hk,rfl⟩ := Option.map_eq_some_iff.mp hs
    exact h.written (signalBody_writes hk) hc.2.2
  | setValue semaphore value =>
    obtain ⟨hi,hs⟩ := Option.ite_none_right_eq_some.mp hs
    cases hs
    exact h.written ⟨⟨_,rfl,rfl,id⟩,rfl,rfl⟩ hc.2.2
  | releaseSemaphore semaphore =>
    obtain ⟨hi,hs⟩ := Option.ite_none_right_eq_some.mp hs
    cases hs
    exact h.released hc.1 hc.2
  | removeBlocked v semaphore j =>
    obtain ⟨⟨hi,hj⟩,hs⟩ := Option.ite_none_right_eq_some.mp hs
    obtain ⟨k,hk,rfl⟩ := Option.map_eq_some_iff.mp hs
    obtain ⟨-,rfl⟩ | ⟨hu,hw⟩ := removeBlockedFromSemaphore_writes hj hk
    · exact h
    · refine h.written hw (fun hx => ?_)
      have hempty := (h.counted _ hi).holds_empty (h.free _ hi hx).2
      exact Finset.notMem_empty _ (hempty.entry j hj hu)
  | table l =>
    obtain ⟨hl,hs⟩ := Option.ite_none_right_eq_some.mp hs
    obtain ⟨t,ht,rfl⟩ := Option.map_eq_some_iff.mp hs
    have hg : t.kernel.Guarded := Guarded.step (s := ⟨s.kernel,∅⟩) h.guarded hl ht
    exact h.congr (hg.congr (fun _ _ _ => rfl) rfl) rfl

structure Fresh (s : Registry) (name : List UInt8) (semaphore : ℤ) (s' : Registry) : Prop where
  slot : InSemaphores semaphore
  free : (s.kernel.semaphores semaphore).creator.pid = notUsed
  value : (s'.kernel.semaphores semaphore).value = 0
  waiters : (s'.kernel.semaphores semaphore).list.Holds ∅
  name : strcmp (s'.kernel.semaphores semaphore).name name = 0

def Unchanged (s s' : Registry) : Prop :=
  ∀ i, InSemaphores i → s'.kernel.semaphores i = s.kernel.semaphores i

theorem fresh_iff (h : s.Tidy) (hn : 0 ∉ name) (hc : CreatedSemaphore s name t s') :
    Fresh s name s.firstAvailableSemaphore s' ↔
      (s.kernel.semaphores s.firstAvailableSemaphore).name name.length = 0 := by
  obtain ⟨hroom,⟨mutex,hslots⟩,-⟩ := hc
  obtain ⟨hi,hfree⟩ := h.cached hroom
  obtain ⟨hv,hq⟩ := h.free _ hi hfree
  have hself : s'.kernel.semaphores s.firstAvailableSemaphore = _ :=
    (congrFun hslots _).trans (Function.update_self _ _ _)
  have hname : strcmp (s'.kernel.semaphores s.firstAvailableSemaphore).name name = 0 ↔
      (s.kernel.semaphores s.firstAvailableSemaphore).name name.length = 0 := by
    rw [strcmp_eq_zero hn,hself]
    exact spells_copied
  constructor
  · exact fun hf => hname.mp hf.name
  · intro hz
    refine ⟨hi,hfree,?_,?_,hname.mpr hz⟩
    · rw [hself]
      exact hv
    · rw [hself]
      exact (h.counted _ hi).holds_empty hq

/-- A claimed slot shows. -/
theorem unchanged_claim (h : s.Tidy) (hu : s.usedSemaphores < maxSemaphores) (hp : pid ≠ notUsed)
    (hs : s'.kernel.semaphores = (claimSemaphore pid name thread s).kernel.semaphores) :
    ¬ Unchanged s s' := by
  intro hx
  obtain ⟨hi,hfree⟩ := h.cached hu
  have hself := hx _ hi
  rw [hs] at hself
  have hclaimed : ((claimSemaphore pid name thread s).kernel.semaphores
      s.firstAvailableSemaphore).creator = ⟨pid,thread⟩ := by
    show (Function.update s.kernel.semaphores s.firstAvailableSemaphore _
      s.firstAvailableSemaphore).creator = _
    rw [Function.update_self]
  rw [hself] at hclaimed
  rw [hclaimed] at hfree
  exact hp hfree

/-- After calm steps from the boot a new semaphore is fresh exactly when the name left in its
slot ends where the new one does, and a failed creation leaves no trace exactly when it
fails at the test it starts with. -/
theorem createSemaphore_fresh {s₀ : Registry} {ls : List SlotStep} (hm : main static = .ok ((),s₀))
    (hr : run step s₀ ls = some s) (hc : Along step Calm s₀ ls) (hp : 0 < pid) (hn : 0 ∉ name)
    (h : createSemaphore pid name thread s = .ok (r,s')) :
    (∀ i, r = some i → (Fresh s name i s' ↔
      (s.kernel.semaphores s.firstAvailableSemaphore).name name.length = 0)) ∧
    (r = none → (Unchanged s s' ↔
      ¬ (s.usedSemaphores < maxSemaphores ∧ name.length < maxName))) := by
  obtain ⟨s₁,hs₁,hb⟩ := main_booted
  rw [hs₁] at hm
  cases hm
  have htidy : s.Tidy := (Along.invariant (D := fun _ _ => True) (fun _ _ _ => step_tidy)
    (fun _ _ _ _ => trivial) hb.tidy hc).2 s hr
  have hused := used_of_pos hp thread
  obtain ⟨rfl,hcreated⟩ | ⟨rfl,hroom,rfl⟩ | ⟨rfl,hu,hlen,hs,-⟩ := createSemaphore_cases h
  · refine ⟨fun i hi => ?_,fun hx => (by cases hx)⟩
    obtain rfl := Option.some.inj hi
    exact fresh_iff htidy hn hcreated
  · exact ⟨fun i hx => (by cases hx),fun _ => ⟨fun _ => hroom,fun _ _ _ => rfl⟩⟩
  · refine ⟨fun i hx => (by cases hx),fun _ => ⟨fun hx => ?_,fun hx => absurd ⟨hu,hlen⟩ hx⟩⟩
    exact absurd hx (unchanged_claim htidy hu hused hs)

/-- Two semaphores are created, the first one is used up and released. -/
def history : List SlotStep :=
  [.createSemaphore 1 [115] 0,.signal 0,.createSemaphore 2 [116] 0,.wait 0 ⟨1,0⟩,.releaseSemaphore 0]

theorem createSemaphore_fresh_third : ∃ s₀ s s', main static = .ok ((),s₀) ∧
    run step s₀ history = some s ∧ createSemaphore 3 [117] 0 s = .ok (some 2,s') ∧
      Fresh s [117] 2 s' := by
  obtain ⟨s₀,hm,-⟩ := main_booted
  have hx : (main static).toOption.bind (fun x => (run step x.2 history).bind (fun s =>
      (createSemaphore 3 [117] 0 s).toOption.map (fun y => decide (Along step Calm x.2 history ∧
        y.1 = some 2 ∧ (s.kernel.semaphores s.firstAvailableSemaphore).name 1 = 0)))) = some true := by
    decide +kernel
  obtain ⟨x,hboot,hx⟩ := Option.bind_eq_some_iff.mp hx
  rw [hm] at hboot
  cases hboot
  obtain ⟨s,hr,hx⟩ := Option.bind_eq_some_iff.mp hx
  obtain ⟨⟨r,s'⟩,hcall,hx⟩ := Option.map_eq_some_iff.mp hx
  obtain ⟨hc,rfl,hname⟩ := of_decide_eq_true hx
  have hok : createSemaphore 3 [117] 0 s = .ok (some 2,s') := by
    cases he : createSemaphore 3 [117] 0 s <;> rw [he] at hcall <;> cases hcall
    rfl
  exact ⟨s₀,s,s',hm,hr,hok,((createSemaphore_fresh hm hr hc (by decide) (by decide) hok).1 2 rfl).mpr
    hname⟩

/-- `n` mutexes after the boot, none of them with a name that starts with an `s`. -/
structure Crowded (s₀ : Registry) (n : ℕ) (s : Registry) : Prop where
  quiet : s.kernel.Quiet
  admin : (s.kernel.mutexes adminMutex).value ≠ locked
  names : ∀ i, InMutexes i → (s.kernel.mutexes i).name 0 ≠ 115
  usedMutexes : s.kernel.usedMutexes = 4+n
  rest : s = { s₀ with kernel := { s.kernel with semaphores := s₀.kernel.semaphores } }

def crowd : SlotStep := .table (.createMutex 1 [109] 0)

theorem Crowded.step {s₀ : Registry} {n : ℕ} (h : Crowded s₀ n s) (hn : n < 124) :
    ∃ s', step s crowd = some s' ∧ Crowded s₀ (n+1) s' := by
  obtain ⟨r,k,hk⟩ : ∃ r k, s.kernel.createMutex 1 [109] 0 = (r,k) := ⟨_,_,rfl⟩
  have hquiet := h.quiet.createMutex hk
  obtain ⟨-,hx,-⟩ | ⟨-,-,-,hm,hused,-⟩ := createMutex_cases hk
  · rw [h.usedMutexes] at hx
    exact absurd ⟨by unfold maxMutexes; omega,by decide⟩ hx
  have hs : Registry.SemaphoreTable.step s crowd =
      some { s with kernel := { k with semaphores := s.kernel.semaphores } } := by
    have hstep := MutexTable.step_createMutex (s := ⟨s.kernel,∅⟩) (by decide) (by decide) hk
    unfold Registry.SemaphoreTable.step crowd
    simp only [hstep]
    exact if_pos trivial
  refine ⟨_,hs,hquiet.semaphores,?_,fun i hi => ?_,?_,?_⟩
  · show (k.mutexes adminMutex).value ≠ locked
    rw [hm,Function.update_of_ne (h.quiet.guarded.first_ne (by decide) (by decide)).symm]
    exact h.admin
  · show (k.mutexes i).name 0 ≠ 115
    rw [hm]
    by_cases he : i = s.kernel.firstAvailableMutex
    · rw [he,Function.update_self]
      exact (by decide : (109 : UInt8) ≠ 115)
    · rw [Function.update_of_ne he]
      exact h.names i hi
  · show k.usedMutexes = _
    rw [hused,h.usedMutexes]
    push_cast
    ring
  · rw [h.rest]

theorem Crowded.findMutex_none {s₀ : Registry} {n : ℕ} (h : Crowded s₀ n s) :
    s.kernel.findMutex [115] = none := by
  cases hi : s.kernel.findMutex [115] with
  | none => rfl
  | some i =>
    have hbears := mutexBears_searches.found ⟨[115],by decide⟩ i hi
    exact absurd (hbears.2.2 0 (Nat.zero_le _)) (h.names i hbears.1)

theorem crowd_run {s₀ : Registry} {n m : ℕ} (h : Crowded s₀ n s) (hn : n+m ≤ 124) :
    ∃ s', run step s (List.replicate m crowd) = some s' ∧ Crowded s₀ (n+m) s' := by
  induction m generalizing n s with
  | zero => exact ⟨s,rfl,h⟩
  | succ m ih =>
    obtain ⟨s₁,hs₁,h₁⟩ := h.step (by omega)
    obtain ⟨s',hr,hs'⟩ := ih h₁ (by omega)
    refine ⟨s',run_cons.mpr ⟨s₁,hs₁,hr⟩,?_⟩
    have he : n+1+m = n+(m+1) := by ring
    rw [← he]
    exact hs'

theorem crowd_calm {m : ℕ} : Along step (fun _ l => l = crowd) s (List.replicate m crowd) := by
  induction m generalizing s with
  | zero => trivial
  | succ m ih => exact ⟨rfl,fun _ _ => ih⟩

theorem Booted.crowded (h : s.Booted) : Crowded s 0 s := by
  refine ⟨h.quiet,h.open_mutex (by decide),fun i hi => ?_,h.usedMutexes,rfl⟩
  rw [h.mutexes i hi,bootMutex]
  split
  · decide
  split
  · decide
  split
  · decide
  · decide

/-- With the mutexes used up a creation fails and leaves its slot claimed. -/
theorem createSemaphore_fresh_fails : ∃ s₀ s s', main static = .ok ((),s₀) ∧
    run step s₀ (List.replicate 124 crowd) = some s ∧
    createSemaphore 1 [115] 0 s = .ok (none,s') ∧ ¬ Unchanged s s' := by
  obtain ⟨s₀,hs₀,hb⟩ := main_booted
  obtain ⟨s,hr,hc⟩ := crowd_run (m := 124) (Booted.crowded hb) (by decide)
  have hused : s.usedSemaphores = 0 := by
    rw [hc.rest]
    exact hb.usedSemaphores
  obtain ⟨r,s',hcall,-,-,hnone⟩ : ∃ r s', createSemaphore 1 [115] 0 s = .ok (r,s') ∧ _ :=
    createSemaphore_quiet ⟨1,0⟩ hc.quiet hc.admin (hused.trans_lt (by decide)) (by decide)
  have hfull : ¬ s.kernel.usedMutexes < maxMutexes := by
    rw [hc.usedMutexes]
    decide
  obtain rfl := hnone.mpr ⟨hc.findMutex_none,hfull⟩
  refine ⟨s₀,s,s',hs₀,hr,hcall,?_⟩
  have htidy : s.Tidy := (Along.invariant (C := fun _ l => l = crowd) (D := fun _ _ => True)
    (fun _ _ _ hI hl => step_tidy hI (hl ▸ trivial)) (fun _ _ _ _ => trivial) hb.tidy crowd_calm).2 s hr
  obtain ⟨hx,-⟩ | ⟨-,hx,-⟩ | ⟨-,hu,-,hs,-⟩ := createSemaphore_cases hcall
  · cases hx
  · exact absurd ⟨hused.trans_lt (by decide),by decide⟩ hx
  · exact unchanged_claim htidy hu (by decide) hs

end SemaphoreTable
end Registry
end ComplexOS
