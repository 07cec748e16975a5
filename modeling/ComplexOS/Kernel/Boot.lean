import ComplexOS.Kernel.RegistryCalls
import ComplexOS.Kernel.FreshMutex
import ComplexOS.Heap.HeapRuns

/-! # The tables after the boot

What `main` leaves behind: the heap's mutex in the slot of `adminMutex`, the mutexes of
the semaphores and of the channels behind it, and counters that have seen one creation
more than there are mutexes.
-/
namespace ComplexOS

namespace Kernel

def clearedMutex : Mutex := (Kernel.static.mutexes 0).clear

def clearedSemaphore : Semaphore := (Kernel.static.semaphores 0).clear

def buddyName : List UInt8 := bytes "_BUDDY_MUTEX_"
def semName : List UInt8 := bytes "_SEM_MUTEX_"
def channelName : List UInt8 := bytes "_CHANNEL_MUTEX_"

def bootMutex (i : ℤ) : Mutex :=
  if i = 0 then { named clearedMutex buddyName ⟨0,0⟩ with lockProcess := ⟨-1,-1⟩ }
  else if i = 1 then named clearedMutex semName ⟨0,0⟩
  else if i = 2 then named clearedMutex channelName ⟨0,0⟩
  else clearedMutex

end Kernel

namespace TableStep

def ByProcess : TableStep → Prop
  | .releaseMutex _ t => 0 < t.pid
  | _ => True

instance : DecidablePred ByProcess
  | .releaseMutex _ t => inferInstanceAs (Decidable (0 < t.pid))
  | .createMutex _ _ _ => .isTrue trivial
  | .mutexDown _ _ => .isTrue trivial
  | .mutexUp _ _ => .isTrue trivial
  | .unlockProcess _ => .isTrue trivial
  | .removeBlocked _ _ _ => .isTrue trivial
  | .other _ => .isTrue trivial

end TableStep

namespace Kernel

/-- The mutexes of the kernel itself stay in their slots, and these are not handed out. -/
structure Guarded (k : Kernel) : Prop where
  creator : ∀ i, 0 ≤ i → i ≤ 2 → (k.mutexes i).creator = ⟨0,0⟩
  first : ¬ (0 ≤ k.firstAvailableMutex ∧ k.firstAvailableMutex ≤ 2)

namespace Guarded
variable {s s' : MutexTable} {l : TableStep} {k k' : Kernel}

theorem congr (h : k.Guarded) (hm : ∀ i, 0 ≤ i → i ≤ 2 → (k'.mutexes i).creator = (k.mutexes i).creator)
    (hf : k'.firstAvailableMutex = k.firstAvailableMutex) : k'.Guarded := by
  refine ⟨fun i h0 h2 => ?_,?_⟩
  · rw [hm i h0 h2]
    exact h.creator i h0 h2
  · rw [hf]
    exact h.first

theorem update (h : k.Guarded) {mutex : ℤ} {m : Mutex}
    (hm : k'.mutexes = Function.update k.mutexes mutex m)
    (hc : m.creator = (k.mutexes mutex).creator)
    (hf : k'.firstAvailableMutex = k.firstAvailableMutex) : k'.Guarded := by
  apply h.congr _ hf
  intro i _ _
  rw [hm]
  by_cases he : i = mutex
  · rw [he,Function.update_self,hc]
  · rw [Function.update_of_ne he]

theorem createMutex (h : k.Guarded) {pid thread : ℤ} {name : List UInt8} {r : Option ℤ}
    (hk : k.createMutex pid name thread = (r,k')) : k'.Guarded := by
  obtain ⟨-,-,rfl⟩ | ⟨-,-,-,hm,-,hf,-⟩ := createMutex_cases hk
  · exact h
  · have hcreator : ∀ i, 0 ≤ i → i ≤ 2 → (k'.mutexes i).creator = ⟨0,0⟩ := by
      intro i h0 h2
      have hne : i ≠ k.firstAvailableMutex := fun he => h.first (he ▸ ⟨h0,h2⟩)
      rw [hm,Function.update_of_ne hne]
      exact h.creator i h0 h2
    refine ⟨hcreator,fun hx => ?_⟩
    obtain ⟨hfull,-⟩ | ⟨-,-,hfree⟩ := getNextMutexAvailable_spec (k := k')
    · rw [hf,hfull] at hx
      exact absurd hx.1 (by decide)
    · rw [hf] at hx
      rw [hcreator _ hx.1 hx.2] at hfree
      exact absurd hfree (by decide)

/-- The creator of these mutexes is no process. -/
theorem creator_ne (h : k.Guarded) {i : ℤ} {t : ThreadId} (h0 : 0 ≤ i) (h2 : i ≤ 2)
    (hp : 0 < t.pid) : (k.mutexes i).creator ≠ t := by
  rintro rfl
  rw [h.creator i h0 h2] at hp
  exact absurd hp (by decide)

theorem releaseMutexBody (h : k.Guarded) {mutex : ℤ} {t : ThreadId} {b : Bool} (hp : 0 < t.pid)
    (hk : k.releaseMutexBody mutex t = some (b,k')) : k'.Guarded := by
  obtain ⟨-,-,rfl⟩ | ⟨-,hv,hc,hr,m,hm,-⟩ := releaseMutexBody_cases hk
  · exact h
  · refine h.congr (fun i h0 h2 => ?_) hr.firstAvailableMutex
    have hne : i ≠ mutex := fun he => h.creator_ne h0 h2 hp (he ▸ hc)
    rw [hm,Function.update_of_ne hne]

theorem step (h : s.kernel.Guarded) (hl : l.ByProcess) (hs : s.step l = some s') :
    s'.kernel.Guarded := by
  cases l with
  | createMutex pid name thread =>
    obtain ⟨-,hs⟩ := Option.ite_none_right_eq_some.mp hs
    cases hs
    exact h.createMutex Prod.mk.eta.symm
  | mutexDown mutex t =>
    obtain ⟨-,hs⟩ := Option.ite_none_right_eq_some.mp hs
    obtain ⟨⟨o,k⟩,hk,rfl⟩ := Option.map_eq_some_iff.mp hs
    obtain ⟨-,-,rfl⟩ | ⟨-,hr,m,ht,hm⟩ := mutexDown_cases hk
    · exact h
    · have hself : m.creator = (s.kernel.mutexes mutex).creator := by
        cases ht <;> rfl
      refine h.congr (fun i h0 h2 => ?_) hr.firstAvailableMutex
      rw [hm]
      by_cases he : i = mutex
      · rw [he,marked_self,hself]
      · obtain ⟨-,-,-,-,hc | ⟨-,hc⟩⟩ := marked_of_ne (k := s.kernel) (m := m) he
        · exact hc
        · rw [hc,h.creator i h0 h2]
  | mutexUp mutex t =>
    obtain ⟨k,hk,rfl⟩ := Option.map_eq_some_iff.mp hs
    obtain ⟨-,rfl⟩ | ⟨-,-,hr,m,hg,hm⟩ := mutexUp_cases hk
    · exact h
    · apply h.update hm _ hr.firstAvailableMutex
      cases hg <;> rfl
  | releaseMutex mutex t =>
    obtain ⟨⟨b,k⟩,hk,rfl⟩ := Option.map_eq_some_iff.mp hs
    exact h.releaseMutexBody hl hk
  | unlockProcess mutex =>
    obtain ⟨-,hs⟩ := Option.ite_none_right_eq_some.mp hs
    obtain ⟨⟨b,k⟩,hk,rfl⟩ := Option.map_eq_some_iff.mp hs
    obtain ⟨-,-,rfl⟩ | ⟨-,hr,w,l,-,hm⟩ := unlockProcess_cases hk
    · exact h
    · exact h.update hm rfl hr.firstAvailableMutex
  | removeBlocked v mutex j =>
    obtain ⟨-,hs⟩ := Option.ite_none_right_eq_some.mp hs
    obtain ⟨k,hk,rfl⟩ := Option.map_eq_some_iff.mp hs
    obtain ⟨-,rfl⟩ | ⟨-,hr,hm⟩ := removeBlockedFromMutex_cases hk
    · exact h
    · exact h.update hm rfl hr.firstAvailableMutex
  | other k =>
    cases hs
    exact ⟨h.creator,h.first⟩

end Guarded
end Kernel

namespace Registry
open Kernel Call
variable {s : Registry}

def withSemaphores (s : Registry) (semaphores : ℤ → Semaphore) : Registry :=
  { s with
    kernel := { s.kernel with semaphores := semaphores }
    firstAvailableSemaphore := 0 }

theorem getNextSemaphoreAvailable_eq {k : Kernel} {i : ℕ} (hi : (i : ℤ) < maxSemaphores)
    (hfree : (k.semaphores i).creator.pid = notUsed)
    (h : ∀ j < i, (k.semaphores j).creator.pid ≠ notUsed) : k.getNextSemaphoreAvailable = i := by
  have hf : SlotTable.firstFree (fun s : Semaphore => s.creator.pid ≠ notUsed) maxSemaphores.toNat
      (fun j : ℕ => k.semaphores j) = some i :=
    SlotTable.firstFree_eq_some (by omega) (by simpa using hfree) h
  unfold getNextSemaphoreAvailable
  rw [hf]
  rfl

theorem clearSemaphore_withSemaphores {semaphores : ℤ → Semaphore} {n : ℕ}
    (hn : (n : ℤ) < maxSemaphores) (h : 0 < n → (semaphores 0).creator.pid = notUsed) :
    clearSemaphore n (withSemaphores s semaphores) =
      withSemaphores s (Function.update semaphores n (semaphores n).clear) := by
  let k := (withSemaphores s semaphores).kernel.setSemaphore n (semaphores n).clear
  have hzero : (k.semaphores 0).creator.pid = notUsed := by
    show (Function.update semaphores n (semaphores n).clear 0).creator.pid = _
    rcases Nat.eq_zero_or_pos n with rfl | hpos
    · simp [Semaphore.clear]
    · rw [Function.update_of_ne (by omega)]
      exact h hpos
  have hnext : k.getNextSemaphoreAvailable = 0 := getNextSemaphoreAvailable_eq (i := 0) (by decide)
    hzero (fun j hj => absurd hj (Nat.not_lt_zero j))
  have hge : ¬ (n : ℤ) < (withSemaphores s semaphores).firstAvailableSemaphore := by
    show ¬ (n : ℤ) < 0
    omega
  unfold clearSemaphore
  rw [if_pos hn]
  simp only
  rw [if_neg hge]
  exact congrArg (fun x => { s with kernel := k, firstAvailableSemaphore := x }) hnext

/-- The clearing loop of `setupSemaphoreSystem`. -/
theorem clearSemaphore_foldl (hf : s.firstAvailableSemaphore = 0) {n : ℕ}
    (hn : (n : ℤ) ≤ maxSemaphores) : ∃ semaphores,
      (List.range n).foldl (fun s (i : ℕ) => clearSemaphore i s) s = withSemaphores s semaphores ∧
      ∀ i, semaphores i =
        if 0 ≤ i ∧ i < n then (s.kernel.semaphores i).clear else s.kernel.semaphores i := by
  induction n with
  | zero =>
    refine ⟨s.kernel.semaphores,?_,fun i => ?_⟩
    · show s = { s with firstAvailableSemaphore := 0 }
      rw [← hf]
    · rw [if_neg]
      omega
  | succ n ih =>
    obtain ⟨semaphores,he,hs⟩ := ih (by omega)
    refine ⟨Function.update semaphores n (semaphores n).clear,?_,fun i => ?_⟩
    · rw [List.range_succ,List.foldl_append,List.foldl_cons,List.foldl_nil,he]
      apply clearSemaphore_withSemaphores (by omega)
      intro hpos
      rw [hs,if_pos (by omega)]
      rfl
    · by_cases hi : i = n
      · subst hi
        rw [Function.update_self,hs,if_neg (by omega),if_pos (by omega)]
      · rw [Function.update_of_ne hi,hs]
        refine if_congr ?_ rfl rfl
        omega

structure Booted (s : Registry) : Prop where
  semaphoreMutex : s.semaphoreMutex = 1
  buddyMutex : s.buddyMutex = adminMutex
  channelMutex : s.channelMutex = 2
  mutexes : ∀ i, InMutexes i → s.kernel.mutexes i = bootMutex i
  firstMutex : s.kernel.firstAvailableMutex = 3
  usedMutexes : s.kernel.usedMutexes = 4
  semaphores : ∀ i, InSemaphores i → s.kernel.semaphores i = clearedSemaphore
  firstSemaphore : s.firstAvailableSemaphore = 0
  usedSemaphores : s.usedSemaphores = 0
  heap : BuddyAllocator.HeapOk s.heap
  channels : s.channels = []
  pipes : s.pipes = static.pipes

/-- One more mutex of the kernel itself. -/
theorem createMutex_call {i j : ℕ} {n : List UInt8}
    (hroom : s.kernel.usedMutexes < maxMutexes) (hn : n.length < maxName)
    (hfirst : s.kernel.firstAvailableMutex = i) (hj : (j : ℤ) < maxMutexes) (hij : j ≠ i)
    (hfree : (s.kernel.mutexes j).creator.pid = notUsed)
    (hused : ∀ l : ℕ, l < j → l ≠ i → (s.kernel.mutexes l).creator.pid ≠ notUsed) :
    ∃ k, createMutex 0 n 0 s = .ok (some (i : ℤ),{ s with kernel := k }) ∧
      k.mutexes i = named (s.kernel.mutexes i) n ⟨0,0⟩ ∧
      (∀ l : ℤ, l ≠ i → k.mutexes l = s.kernel.mutexes l) ∧
      k.usedMutexes = s.kernel.usedMutexes+1 ∧ k.firstAvailableMutex = j ∧
      k.semaphores = s.kernel.semaphores ∧ k.caller = s.kernel.caller := by
  have hk := createMutex_next (p := 0) (t := 0) hroom hn hfirst hj hij hfree hused (by decide)
  refine ⟨_,createMutex_ok.mpr ⟨_,hk,rfl⟩,?_,fun l hl => ?_,rfl,rfl,rfl,rfl⟩
  · exact Function.update_self _ _ _
  · exact Function.update_of_ne hl _ _

/-- `setupMutexSystem` at the start of `main`. -/
theorem setup_booted : Kernel.static.setupMutexSystem.mutexes 0 = { clearedMutex with creator := ⟨0,0⟩ } ∧
    (∀ l, InMutexes l → l ≠ 0 → Kernel.static.setupMutexSystem.mutexes l = clearedMutex) ∧
    Kernel.static.setupMutexSystem.firstAvailableMutex = 0 ∧
    Kernel.static.setupMutexSystem.usedMutexes = 1 ∧
    Kernel.static.setupMutexSystem.semaphores = Kernel.static.semaphores ∧
    Kernel.static.setupMutexSystem.caller = ⟨-1,-1⟩ := by
  obtain ⟨hslots,hfirst,hused⟩ := setupMutexSystem_spec (k := Kernel.static) Int.one_pos
  obtain ⟨hsem,hproc,hcur⟩ := setupMutexSystem_rest (k := Kernel.static)
  refine ⟨hslots 0 (by decide),fun l hl hne => ?_,hfirst,hused,hsem,?_⟩
  · rw [hslots l hl,if_neg (show l ≠ adminMutex from hne)]
    rfl
  · unfold caller getCurrentThread getpid
    rw [hcur,hproc]
    rfl

theorem main_booted : ∃ s, main static = .ok ((),s) ∧ Booted s := by
  obtain ⟨hadmin,hrest,hfirst,hused,hsem,hcaller⟩ := setup_booted
  generalize hk₀ : Kernel.static.setupMutexSystem = k₀ at *
  -- the first creation finds the slot of `adminMutex`
  obtain ⟨k₁,h₁,hself₁,hother₁,hused₁,hfirst₁,hsem₁,hcaller₁⟩ := createMutex_call
    (s := { static with kernel := k₀ }) (i := 0) (j := 1) (n := buddyName)
    (hused.trans_lt (by decide)) (by decide) hfirst (by decide) (by decide)
    (congrArg (fun m => m.creator.pid) (hrest 1 (by decide) (by decide))) (fun l hl hne => by omega)
  have hvalue₁ : k₁.mutexes 0 = named clearedMutex buddyName ⟨0,0⟩ := by
    refine hself₁.trans ?_
    show named (k₀.mutexes 0) _ _ = _
    rw [hadmin]
    rfl
  have hrest₁ : ∀ l, InMutexes l → l ≠ 0 → k₁.mutexes l = clearedMutex :=
    fun l hl hne => (hother₁ l hne).trans (hrest l hl hne)
  have hvalid₁ : k₁.isValidMutex 0 := ⟨by decide,by decide,by rw [hvalue₁]; decide⟩
  have hopen₁ : (k₁.mutexes 0).value ≠ locked := by
    rw [hvalue₁]
    decide
  have hpop₁ : (k₁.mutexes 0).list.pop = none := by
    rw [hvalue₁]
    rfl
  -- a page for the scheduler, under a mutex that marks the slot behind it
  obtain ⟨a,h,h₂,hheap⟩ := allocatePages_free (s := { static with kernel := k₁ }) (q := 1)
    hvalid₁ hopen₁ hpop₁ BuddyAllocator.initializeHeap_ok le_rfl (by decide)
  obtain ⟨k₂,hk₂⟩ : ∃ k₂, k₁.cycle 0 k₁.caller = k₂ := ⟨_,rfl⟩
  have hvalue₂ : k₂.mutexes 0 = bootMutex 0 := by
    rw [← hk₂,cycle_self,hvalue₁,hcaller₁.trans hcaller]
    rfl
  have hone₂ : k₂.mutexes 1 = { clearedMutex with creator := ⟨0,0⟩ } := by
    have hnext : (k₁.cycle 0 k₁.caller).mutexes (0+1) = _ := cycle_next
    rw [hk₂,zero_add,hrest₁ 1 (by decide) (by decide)] at hnext
    exact hnext
  have hrest₂ : ∀ l, InMutexes l → l ≠ 0 → l ≠ 1 → k₂.mutexes l = clearedMutex := by
    intro l hl hne hne'
    rw [← hk₂,cycle_far hne hne',hrest₁ l hl hne]
  have hfirst₂ : k₂.firstAvailableMutex = 1 := by
    rw [← hk₂]
    exact hfirst₁
  have hused₂ : k₂.usedMutexes = 2 := by
    rw [← hk₂]
    exact hused₁.trans (congrArg (·+1) hused)
  have hsem₂ : k₂.semaphores = Kernel.static.semaphores := by
    rw [← hk₂]
    exact hsem₁.trans hsem
  -- the semaphores are cleared
  obtain ⟨semaphores,h₃,hslots⟩ := clearSemaphore_foldl
    (s := { static with kernel := k₂, heap := h }) rfl (n := maxSemaphores.toNat)
    (Int.toNat_of_nonneg (by decide)).le
  have hcleared : ∀ i, InSemaphores i → semaphores i = clearedSemaphore := by
    intro i hi
    have hlt : 0 ≤ i ∧ i < (maxSemaphores.toNat : ℤ) := hi
    rw [hslots,if_pos hlt]
    show (k₂.semaphores i).clear = _
    rw [hsem₂]
    rfl
  -- the mutexes of the semaphores and of the channels
  obtain ⟨k₄,h₄,hself₄,hother₄,hused₄,hfirst₄,hsem₄,-⟩ := createMutex_call
    (s := withSemaphores { static with kernel := k₂, heap := h } semaphores) (i := 1) (j := 2)
    (n := semName) (hused₂.trans_lt (by decide)) (by decide) hfirst₂ (by decide) (by decide)
    (congrArg (fun m => m.creator.pid) (hrest₂ 2 (by decide) (by decide) (by decide)))
    (fun l hl hne => by
      obtain rfl : l = 0 := by omega
      exact ne_of_eq_of_ne (congrArg (fun m => m.creator.pid) hvalue₂) (by decide))
  obtain ⟨k₅,h₅,hself₅,hother₅,hused₅,hfirst₅,hsem₅,-⟩ := createMutex_call
    (s := { withSemaphores { static with kernel := k₂, heap := h } semaphores with
      kernel := k₄, semaphoreMutex := 1 }) (i := 2) (j := 3) (n := channelName)
    ((hused₄.trans (congrArg (·+1) hused₂)).trans_lt (by decide)) (by decide) hfirst₄ (by decide)
    (by decide) (congrArg (fun m => m.creator.pid) ((hother₄ 3 (by decide)).trans
      (hrest₂ 3 (by decide) (by decide) (by decide))))
    (fun l hl hne => by
      rcases (by omega : l = 0 ∨ l = 1) with rfl | rfl
      · exact ne_of_eq_of_ne (congrArg (fun m => m.creator.pid) ((hother₄ 0 (by decide)).trans
          hvalue₂)) (by decide)
      · exact ne_of_eq_of_ne (congrArg (fun m => m.creator.pid) hself₄)
          (by decide : (0 : ℤ) ≠ notUsed))
  refine ⟨{ withSemaphores { static with kernel := k₂, heap := h } semaphores with
    kernel := k₅, semaphoreMutex := 1, channelMutex := 2 },?_,?_⟩
  · unfold main
    rw [modify_bind,show (static.kernel : Kernel).setupMutexSystem = k₀ from hk₀]
    refine (bind_of_ok h₁).trans ?_
    rw [modify_bind]
    refine (bind_of_ok h₂).trans ?_
    subst hk₂
    refine (bind_of_ok (congrArg (fun s => Except.ok ((),s)) h₃)).trans ?_
    refine (bind_of_ok h₄).trans ?_
    rw [modify_bind]
    refine (bind_of_ok h₅).trans ?_
    rfl
  · refine ⟨rfl,rfl,rfl,fun i hi => ?_,hfirst₅,?_,fun i hi => ?_,rfl,rfl,hheap,rfl,rfl⟩
    · show k₅.mutexes i = _
      by_cases h2 : i = 2
      · subst h2
        refine hself₅.trans ?_
        show named (k₄.mutexes 2) _ _ = _
        rw [hother₄ 2 (by decide)]
        show named (k₂.mutexes 2) _ _ = _
        rw [hrest₂ 2 (by decide) (by decide) (by decide)]
        rfl
      rw [hother₅ i h2]
      show k₄.mutexes i = _
      by_cases h1 : i = 1
      · subst h1
        refine hself₄.trans ?_
        show named (k₂.mutexes 1) _ _ = _
        rw [hone₂]
        rfl
      rw [hother₄ i h1]
      show k₂.mutexes i = _
      by_cases h0 : i = 0
      · subst h0
        exact hvalue₂
      rw [hrest₂ i hi h0 h1,bootMutex,if_neg h0,if_neg h1,if_neg h2]
    · show k₅.usedMutexes = 4
      rw [hused₅]
      show k₄.usedMutexes+1 = 4
      rw [hused₄]
      show k₂.usedMutexes+1+1 = 4
      rw [hused₂]
      rfl
    · show k₅.semaphores i = _
      rw [hsem₅]
      show k₄.semaphores i = _
      rw [hsem₄]
      exact hcleared i hi

theorem Booted.guarded (h : s.Booted) : s.kernel.Guarded := by
  refine ⟨fun i h0 h2 => ?_,?_⟩
  · rw [h.mutexes i ⟨h0,h2.trans_lt (by decide)⟩]
    rcases (by omega : i = 0 ∨ i = 1 ∨ i = 2) with rfl | rfl | rfl <;> rfl
  · rw [h.firstMutex]
    decide

end Registry
end ComplexOS
