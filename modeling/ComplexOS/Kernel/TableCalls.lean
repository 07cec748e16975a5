import ComplexOS.Kernel.RegistryCalls
import ComplexOS.Kernel.MutexTableRuns

/-! # Runs of calls

Whole calls of any process, one after the other, on the two tables. What they do to the
table of mutexes is a run of its steps, so the invariants of those runs hold here, too.
-/
namespace ComplexOS
open Kernel Call

def Kernel.Reaches (P : TableStep → Prop) (k k' : Kernel) : Prop :=
  ∀ live, ∃ ls live', Runs.run MutexTable.step ⟨k,live⟩ ls = some ⟨k',live'⟩ ∧ ∀ l ∈ ls, P l

namespace Kernel.Reaches
variable {P Q : TableStep → Prop} {k k' k'' : Kernel} {mutex : ℤ} {t : ThreadId}

theorem refl : Reaches P k k := fun live => ⟨[],live,rfl,by simp⟩

theorem trans (h : Reaches P k k') (h' : Reaches P k' k'') : Reaches P k k'' := by
  intro live
  obtain ⟨ls,live',hr,hP⟩ := h live
  obtain ⟨ls',live'',hr',hP'⟩ := h' live'
  refine ⟨ls++ls',live'',Runs.run_append.mpr ⟨_,hr,hr'⟩,fun l hl => ?_⟩
  rcases List.mem_append.mp hl with hl | hl
  · exact hP l hl
  · exact hP' l hl

theorem mono (h : Reaches P k k') (hPQ : ∀ l, P l → Q l) : Reaches Q k k' := by
  intro live
  obtain ⟨ls,live',hr,hP⟩ := h live
  exact ⟨ls,live',hr,fun l hl => hPQ l (hP l hl)⟩

theorem step {l : TableStep} (hP : P l)
    (h : ∀ live, ∃ live', MutexTable.step ⟨k,live⟩ l = some ⟨k',live'⟩) : Reaches P k k' := by
  intro live
  obtain ⟨live',hs⟩ := h live
  exact ⟨[l],live',Runs.run_cons.mpr ⟨_,hs,rfl⟩,by simpa using hP⟩

theorem mutexDown {o : DownOutcome} (hP : P (.mutexDown mutex t)) (ht : t.used)
    (h : k.mutexDown mutex t = some (o,k')) : Reaches P k k' := by
  refine step hP (fun live => ⟨live,?_⟩)
  simp only [MutexTable.step,if_pos (Or.inl ht),h,Option.map_some]

theorem mutexUp (hP : P (.mutexUp mutex t)) (h : k.mutexUp mutex t = some k') : Reaches P k k' := by
  refine step hP (fun live => ⟨live,?_⟩)
  simp only [MutexTable.step,h,Option.map_some]

theorem createMutex {pid thread : ℤ} {name : List UInt8} {r : Option ℤ}
    (hP : P (.createMutex pid name thread)) (hp : pid ≠ notUsed) (hn : 0 ∉ name)
    (h : k.createMutex pid name thread = (r,k')) : Reaches P k k' :=
  step hP (fun _ => ⟨_,MutexTable.step_createMutex hp hn h⟩)

theorem releaseMutex {b : Bool} (hP : P (.releaseMutex mutex t))
    (h : k.releaseMutexBody mutex t = some (b,k')) : Reaches P k k' := by
  refine step hP (fun live => ⟨if b then live.erase mutex else live,?_⟩)
  simp only [MutexTable.step,h,Option.map_some]

theorem unlockProcess {b : Bool} (hP : P (.unlockProcess mutex)) (hm : InMutexes mutex)
    (h : k.unlockProcess mutex = some (b,k')) : Reaches P k k' := by
  refine step hP (fun live => ⟨live,?_⟩)
  simp only [MutexTable.step,if_pos hm,h,Option.map_some]

/-- Whatever the rest of the kernel does. -/
theorem other (hP : P (.other k')) (hm : k'.mutexes = k.mutexes)
    (hf : k'.firstAvailableMutex = k.firstAvailableMutex) (hu : k'.usedMutexes = k.usedMutexes) :
    Reaches P k k' := by
  refine step hP (fun live => ⟨live,?_⟩)
  simp only [MutexTable.step,← hm,← hf,← hu]

/-- An invariant of the steps is one of the calls. -/
theorem invariant {I : MutexTable → Prop} (h : Reaches P k k')
    (hstep : ∀ s l t, I s → P l → MutexTable.step s l = some t → I t) (live : Finset ℤ)
    (hI : I ⟨k,live⟩) : ∃ live', I ⟨k',live'⟩ := by
  obtain ⟨ls,live',hr,hP⟩ := h live
  refine ⟨live',?_⟩
  clear h
  generalize MutexTable.mk k live = s at hI hr
  induction ls generalizing s with
  | nil =>
    cases hr
    exact hI
  | cons l ls ih =>
    obtain ⟨t,ht,hr⟩ := Runs.run_cons.mp hr
    exact ih (fun l hl => hP l (List.mem_cons_of_mem _ hl)) t
      (hstep s l t hI (hP l List.mem_cons_self) ht) hr

end Kernel.Reaches

namespace TableStep

def By (pid : ℤ) (M : ℤ → Prop) : TableStep → Prop
  | .createMutex pid' _ _ => pid' = pid
  | .mutexDown mutex t => t.pid = pid ∧ M mutex
  | .mutexUp mutex t => t.pid = pid ∧ M mutex
  | .releaseMutex _ t => t.pid = pid
  | .unlockProcess mutex => InSemaphores mutex
  | .removeBlocked _ _ _ => False
  | .other _ => True

end TableStep

namespace Registry
variable {s s' : Registry} {mutex semaphore pid thread : ℤ} {t : ThreadId} {name : List UInt8}
  {r : Option ℤ} {b : Bool} {M : ℤ → Prop} {k k' : Kernel}

theorem reaches_down {o : DownOutcome} (hM : M mutex) (hp : pid ≠ notUsed)
    (h : k.mutexDown mutex ⟨pid,thread⟩ = some (o,k')) : Reaches (TableStep.By pid M) k k' :=
  Reaches.mutexDown (t := ⟨pid,thread⟩) ⟨rfl,hM⟩ hp h

theorem reaches_up (hM : M mutex) (h : k.mutexUp mutex ⟨pid,thread⟩ = some k') :
    Reaches (TableStep.By pid M) k k' :=
  Reaches.mutexUp (t := ⟨pid,thread⟩) ⟨rfl,hM⟩ h

theorem reaches_other (hm : k'.mutexes = k.mutexes)
    (hf : k'.firstAvailableMutex = k.firstAvailableMutex) (hu : k'.usedMutexes = k.usedMutexes) :
    Reaches (TableStep.By pid M) k k' :=
  Reaches.other trivial hm hf hu

theorem getMutex_reaches (hM : M adminMutex) (hp : pid ≠ notUsed) (hn : 0 ∉ name)
    (h : getMutex name pid thread s = .ok (r,s')) :
    Reaches (TableStep.By pid M) s.kernel s'.kernel := by
  obtain ⟨k,hk,⟨i,-,-,rfl⟩ | ⟨-,k₁,k₂,hk₁,hk₂,rfl⟩⟩ := getMutex_ok h
  · exact reaches_down hM hp hk
  · have hcreate : Reaches (TableStep.By pid M) k k₁ :=
      Reaches.createMutex (by exact rfl) hp hn hk₁
    exact ((reaches_down hM hp hk).trans hcreate).trans (reaches_up hM hk₂)

theorem releaseMutex_reaches (hM : M adminMutex) (hp : pid ≠ notUsed)
    (h : releaseMutex pid mutex thread s = .ok (b,s')) :
    Reaches (TableStep.By pid M) s.kernel s'.kernel := by
  obtain ⟨k,k₁,k₂,hk,hk₁,hk₂,rfl⟩ := releaseMutex_ok h
  have hrelease : Reaches (TableStep.By pid M) k k₁ :=
    Reaches.releaseMutex (t := ⟨pid,thread⟩) rfl hk₁
  exact ((reaches_down hM hp hk).trans hrelease).trans (reaches_up hM hk₂)

theorem createSemaphore_reaches (hM : M adminMutex) (hp : pid ≠ notUsed) (hn : 0 ∉ name)
    (h : createSemaphore pid name thread s = .ok (r,s')) :
    Reaches (TableStep.By pid M) s.kernel s'.kernel := by
  obtain ⟨-,-,rfl⟩ | ⟨-,-,m,s₁,hg,hx⟩ := createSemaphore_ok h
  · exact Reaches.refl
  · have hclaim : Reaches (TableStep.By pid M) s.kernel (claimSemaphore pid name thread s).kernel :=
      reaches_other rfl rfl rfl
    have hget := hclaim.trans (getMutex_reaches hM hp hn hg)
    obtain ⟨-,-,rfl⟩ | ⟨mutex,-,-,rfl⟩ := hx
    · exact hget
    · exact hget.trans (reaches_other rfl rfl rfl)

theorem getSemaphore_reaches (hM : M adminMutex) (hS : M s.semaphoreMutex) (hp : pid ≠ notUsed)
    (hn : 0 ∉ name) (h : getSemaphore name pid thread s = .ok (r,s')) :
    Reaches (TableStep.By pid M) s.kernel s'.kernel := by
  obtain ⟨k,hk,⟨i,-,-,rfl⟩ | ⟨-,s₁,k₂,hc,hk₂,rfl⟩⟩ := getSemaphore_ok h
  · exact reaches_down hS hp hk
  · have hcreate := createSemaphore_reaches hM hp hn hc
    exact ((reaches_down hS hp hk).trans hcreate).trans (reaches_up hS hk₂)

theorem unlockAllSemaphore_reaches (hs : InSemaphores semaphore) {n : ℕ}
    (h : unlockAllSemaphore semaphore n k = some k') : Reaches (TableStep.By pid M) k k' := by
  induction n generalizing k with
  | zero =>
    unfold unlockAllSemaphore at h
    split at h
    · cases h
    · cases h
      exact Reaches.refl
  | succ n ih =>
    unfold unlockAllSemaphore at h
    split at h
    · obtain ⟨⟨b,k₁⟩,hk,h⟩ := Option.bind_eq_some_iff.mp h
      have hunlock : Reaches (TableStep.By pid M) k k₁ :=
        Reaches.unlockProcess (by exact hs) ⟨hs.1,hs.2.trans (by decide)⟩ hk
      exact hunlock.trans (ih h)
    · cases h
      exact Reaches.refl

theorem releaseSemaphore_reaches (hM : M adminMutex) (hS : M s.semaphoreMutex) (hp : pid ≠ notUsed)
    (h : releaseSemaphore pid semaphore thread s = .ok (b,s')) :
    Reaches (TableStep.By pid M) s.kernel s'.kernel := by
  obtain ⟨k,s₁,k₂,hk,hb,hk₂,rfl⟩ := releaseSemaphore_ok h
  have hbody : Reaches (TableStep.By pid M) k s₁.kernel := by
    obtain ⟨-,-,rfl⟩ | ⟨hv,-,-,b',s₂,k₃,hr,hu,rfl⟩ := releaseSemaphoreBody_ok hb
    · exact Reaches.refl
    · have hrelease := releaseMutex_reaches (s := { s with kernel := k }) hM hp hr
      have hdisown : Reaches (TableStep.By pid M) s₂.kernel (s₂.kernel.disownSemaphore semaphore) :=
        reaches_other rfl rfl rfl
      exact (hrelease.trans hdisown).trans (unlockAllSemaphore_reaches ⟨hv.1,hv.2.1⟩ hu)
  exact ((reaches_down hS hp hk).trans hbody).trans (reaches_up hS hk₂)

end Registry

inductive PoolCall
  | createMutex (pid : ℤ) (name : List UInt8) (thread : ℤ)
  | getMutex (name : List UInt8) (pid thread : ℤ)
  | releaseMutex (pid mutex thread : ℤ)
  | createSemaphore (pid : ℤ) (name : List UInt8) (thread : ℤ)
  | getSemaphore (name : List UInt8) (pid thread : ℤ)
  | releaseSemaphore (pid semaphore thread : ℤ)
  deriving DecidableEq

namespace PoolCall
variable {c : PoolCall}

def pid : PoolCall → ℤ
  | createMutex pid _ _ => pid
  | getMutex _ pid _ => pid
  | releaseMutex pid _ _ => pid
  | createSemaphore pid _ _ => pid
  | getSemaphore _ pid _ => pid
  | releaseSemaphore pid _ _ => pid

def name : PoolCall → List UInt8
  | createMutex _ name _ => name
  | getMutex name _ _ => name
  | releaseMutex _ _ _ => []
  | createSemaphore _ name _ => name
  | getSemaphore name _ _ => name
  | releaseSemaphore _ _ _ => []

/-- The callers pass the pid of a process, which is positive, and a string. -/
def Valid (c : PoolCall) : Prop := 0 < c.pid ∧ 0 ∉ c.name

instance (c : PoolCall) : Decidable c.Valid := inferInstanceAs (Decidable (_ ∧ _))

theorem Valid.pid_ne (h : c.Valid) : c.pid ≠ notUsed := by
  have hn : notUsed = -1 := rfl
  have hp := h.1
  omega

def call : PoolCall → KernelCall (Option ℤ)
  | createMutex pid name thread => Registry.createMutex pid name thread
  | getMutex name pid thread => Registry.getMutex name pid thread
  | releaseMutex pid mutex thread => Registry.releaseMutex pid mutex thread >>= fun _ => pure none
  | createSemaphore pid name thread => Registry.createSemaphore pid name thread
  | getSemaphore name pid thread => Registry.getSemaphore name pid thread
  | releaseSemaphore pid semaphore thread =>
    Registry.releaseSemaphore pid semaphore thread >>= fun _ => pure none

end PoolCall

namespace Registry
variable {s s' : Registry} {c : PoolCall}

def step (s : Registry) (c : PoolCall) : Option Registry :=
  if c.Valid then (c.call s).toOption.map Prod.snd else none

theorem step_eq_some : step s c = some s' ↔ c.Valid ∧ ∃ r, c.call s = .ok (r,s') := by
  unfold step
  split
  · rename_i hv
    cases hc : c.call s with
    | error e => simp [Except.toOption]
    | ok x =>
      obtain ⟨r,s₁⟩ := x
      simp [Except.toOption,hv,eq_comm]
  · rename_i hv
    simp [hv]

def Internal (s : Registry) (mutex : ℤ) : Prop := mutex = adminMutex ∨ mutex = s.semaphoreMutex

theorem step_reaches (h : step s c = some s') :
    Reaches (TableStep.By c.pid s.Internal) s.kernel s'.kernel := by
  obtain ⟨hv,r,hc⟩ := step_eq_some.mp h
  have hp := hv.pid_ne
  have hn := hv.2
  cases c with
  | createMutex pid name thread =>
    obtain ⟨k,hk,rfl⟩ := createMutex_ok.mp hc
    exact Reaches.createMutex (by exact rfl) hp hn hk
  | getMutex name pid thread => exact getMutex_reaches (Or.inl rfl) hp hn hc
  | releaseMutex pid mutex thread =>
    obtain ⟨b,s₁,hr,hx⟩ := bind_ok.mp hc
    cases hx
    exact releaseMutex_reaches (Or.inl rfl) hp hr
  | createSemaphore pid name thread => exact createSemaphore_reaches (Or.inl rfl) hp hn hc
  | getSemaphore name pid thread => exact getSemaphore_reaches (Or.inl rfl) (Or.inr rfl) hp hn hc
  | releaseSemaphore pid semaphore thread =>
    obtain ⟨b,s₁,hr,hx⟩ := bind_ok.mp hc
    cases hx
    exact releaseSemaphore_reaches (Or.inl rfl) (Or.inr rfl) hp hr

theorem getMutex_rest {name : List UInt8} {pid thread : ℤ} {r : Option ℤ}
    (h : getMutex name pid thread s = .ok (r,s')) : s' = { s with kernel := s'.kernel } := by
  obtain ⟨k,-,⟨i,-,-,rfl⟩ | ⟨-,k₁,k₂,-,-,rfl⟩⟩ := getMutex_ok h
  · rfl
  · rfl

theorem releaseMutex_rest {pid mutex thread : ℤ} {b : Bool}
    (h : releaseMutex pid mutex thread s = .ok (b,s')) : s' = { s with kernel := s'.kernel } := by
  obtain ⟨k,k₁,k₂,-,-,-,rfl⟩ := releaseMutex_ok h
  rfl

theorem createSemaphore_semaphoreMutex {name : List UInt8} {pid thread : ℤ} {r : Option ℤ}
    (h : createSemaphore pid name thread s = .ok (r,s')) : s'.semaphoreMutex = s.semaphoreMutex := by
  obtain ⟨-,-,rfl⟩ | ⟨-,-,m,s₁,hg,hx⟩ := createSemaphore_ok h
  · rfl
  · have hrest : s₁.semaphoreMutex = s.semaphoreMutex := by
      rw [getMutex_rest hg]
      rfl
    obtain ⟨-,-,rfl⟩ | ⟨mutex,-,-,rfl⟩ := hx
    · exact hrest
    · exact hrest

theorem step_semaphoreMutex (h : step s c = some s') : s'.semaphoreMutex = s.semaphoreMutex := by
  obtain ⟨-,r,hc⟩ := step_eq_some.mp h
  cases c with
  | createMutex pid name thread =>
    obtain ⟨k,-,rfl⟩ := createMutex_ok.mp hc
    rfl
  | getMutex name pid thread =>
    rw [getMutex_rest hc]
  | releaseMutex pid mutex thread =>
    obtain ⟨b,s₁,hr,hx⟩ := bind_ok.mp hc
    cases hx
    rw [releaseMutex_rest hr]
  | createSemaphore pid name thread => exact createSemaphore_semaphoreMutex hc
  | getSemaphore name pid thread =>
    obtain ⟨k,-,⟨i,-,-,rfl⟩ | ⟨-,s₁,k₂,hx,-,rfl⟩⟩ := getSemaphore_ok hc
    · rfl
    · exact (createSemaphore_semaphoreMutex hx :)
  | releaseSemaphore pid semaphore thread =>
    obtain ⟨b,s₁,hr,hx⟩ := bind_ok.mp hc
    cases hx
    obtain ⟨k,s₂,k₂,-,hb,-,rfl⟩ := releaseSemaphore_ok hr
    obtain ⟨-,-,rfl⟩ | ⟨-,-,-,b',s₃,k₃,hm,-,rfl⟩ := releaseSemaphoreBody_ok hb
    · rfl
    · show s₃.semaphoreMutex = _
      rw [releaseMutex_rest hm]

end Registry
end ComplexOS
