import ComplexOS.Kernel.Boot
import ComplexOS.Kernel.TableCalls

/-! # The counters of the pools

`usedMutexes` and `usedSemaphores` count creations and are never counted down. They are
right as long as every creation gets a free slot, none of its writes is left behind by
a failure, and nothing is released.
-/
namespace ComplexOS
open SlotTable

theorem TableStep.By.byProcess {l : TableStep} {pid : ℤ} {M : ℤ → Prop} (h : l.By pid M)
    (hp : 0 < pid) : l.ByProcess := by
  cases l <;> simp only [TableStep.ByProcess]
  exact (congrArg (0 < ·) h).mpr hp

namespace Kernel
variable (k : Kernel) (mutex : ℤ) (name : List UInt8)

def liveMutexes : ℕ :=
  (occupied (fun m : Mutex => m.creator.pid ≠ notUsed) maxMutexes.toNat (fun i => k.mutexes i)).card

def liveSemaphores : ℕ :=
  (occupied (fun s : Semaphore => s.creator.pid ≠ notUsed) maxSemaphores.toNat
    (fun i => k.semaphores i)).card

/-- The exchange on this mutex does not make a slot look used. -/
def Harmless : Prop :=
  k.isValidMutex mutex → InMutexes (mutex+1) → (k.mutexes (mutex+1)).creator.pid ≠ notUsed

def CachedFree : Prop :=
  InMutexes k.firstAvailableMutex ∧ (k.mutexes k.firstAvailableMutex).creator.pid = notUsed

def CreatesClean : Prop := k.usedMutexes < maxMutexes → name.length < maxName → k.CachedFree

def GetsClean : Prop := k.Harmless adminMutex ∧ (k.findMutex name = none → k.CreatesClean name)

structure SameSlots (k k' : Kernel) : Prop where
  name : ∀ i, InMutexes i → (k'.mutexes i).name = (k.mutexes i).name
  used : ∀ i, InMutexes i →
    ((k'.mutexes i).creator.pid = notUsed ↔ (k.mutexes i).creator.pid = notUsed)
  firstAvailableMutex : k'.firstAvailableMutex = k.firstAvailableMutex
  usedMutexes : k'.usedMutexes = k.usedMutexes
  semaphores : k'.semaphores = k.semaphores

variable {k mutex name} {k' k'' : Kernel} {t : ThreadId} {o : DownOutcome} {pid thread : ℤ}
  {r : Option ℤ}

theorem inMutexes_nat {i : ℕ} (hi : i < maxMutexes.toNat) : InMutexes i :=
  ⟨Int.natCast_nonneg i,by have : (maxMutexes.toNat : ℤ) = maxMutexes := rfl; omega⟩

theorem inSemaphores_nat {i : ℕ} (hi : i < maxSemaphores.toNat) : InSemaphores i :=
  ⟨Int.natCast_nonneg i,by have : (maxSemaphores.toNat : ℤ) = maxSemaphores := rfl; omega⟩

namespace SameSlots

theorem refl : SameSlots k k := ⟨fun _ _ => rfl,fun _ _ => Iff.rfl,rfl,rfl,rfl⟩

theorem trans (h : SameSlots k k') (h' : SameSlots k' k'') : SameSlots k k'' :=
  ⟨fun i hi => (h'.name i hi).trans (h.name i hi),fun i hi => (h'.used i hi).trans (h.used i hi),
    h'.firstAvailableMutex.trans h.firstAvailableMutex,h'.usedMutexes.trans h.usedMutexes,
    h'.semaphores.trans h.semaphores⟩

theorem liveMutexes (h : SameSlots k k') : k'.liveMutexes = k.liveMutexes := by
  unfold Kernel.liveMutexes
  rw [occupied_congr]
  intro i hi
  exact not_congr (h.used i (inMutexes_nat hi))

theorem findMutex (h : SameSlots k k') : k'.findMutex name = k.findMutex name := by
  unfold Kernel.findMutex
  rw [firstUsed_congr]
  intro i hi
  rw [h.name i (inMutexes_nat hi)]
  exact and_congr_right (fun _ => not_congr (h.used i (inMutexes_nat hi)))

theorem createsClean (h : SameSlots k k') (hc : k.CreatesClean name) : k'.CreatesClean name := by
  intro hu hn
  rw [h.usedMutexes] at hu
  obtain ⟨hi,hf⟩ := hc hu hn
  unfold CachedFree
  rw [h.firstAvailableMutex]
  exact ⟨hi,(h.used _ hi).mpr hf⟩

theorem getsClean (h : SameSlots k k') (hc : k.GetsClean name) : k'.GetsClean name := by
  refine ⟨fun hv hi hx => ?_,fun hf => ?_⟩
  · have ha : InMutexes adminMutex := by decide
    exact hc.1 ⟨ha.1,ha.2,fun hn => hv.2.2 ((h.used _ ha).mpr hn)⟩ hi ((h.used _ hi).mp hx)
  · rw [h.findMutex] at hf
    exact h.createsClean (hc.2 hf)

end SameSlots

theorem mutexDown_sameSlots (hh : k.Harmless mutex) (h : k.mutexDown mutex t = some (o,k')) :
    SameSlots k k' := by
  obtain ⟨-,-,rfl⟩ | ⟨hv,hr,m,ht,hm⟩ := mutexDown_cases h
  · exact SameSlots.refl
  · have hself : m.name = (k.mutexes mutex).name ∧ m.creator = (k.mutexes mutex).creator := by
      cases ht <;> exact ⟨rfl,rfl⟩
    refine ⟨fun i hi => ?_,fun i hi => ?_,hr.firstAvailableMutex,hr.usedMutexes,hr.semaphores⟩
    · rw [hm]
      by_cases he : i = mutex
      · rw [he,marked_self]
        exact hself.1
      · exact (marked_of_ne he).2.2.1
    · rw [hm]
      by_cases he : i = mutex
      · rw [he,marked_self,hself.2]
      · obtain ⟨-,-,-,-,hc | ⟨rfl,hc⟩⟩ := marked_of_ne (k := k) (m := m) he
        · rw [hc]
        · rw [hc]
          exact ⟨fun hx => absurd hx (by decide : (0 : ℤ) ≠ notUsed),fun hx => absurd hx (hh hv hi)⟩

theorem mutexUp_sameSlots (h : k.mutexUp mutex t = some k') : SameSlots k k' := by
  obtain ⟨-,rfl⟩ | ⟨-,-,hr,m,hg,hm⟩ := mutexUp_cases h
  · exact SameSlots.refl
  · have hself : m.name = (k.mutexes mutex).name ∧ m.creator = (k.mutexes mutex).creator := by
      cases hg <;> exact ⟨rfl,rfl⟩
    refine ⟨fun i hi => ?_,fun i hi => ?_,hr.firstAvailableMutex,hr.usedMutexes,hr.semaphores⟩
    · rw [hm]
      by_cases he : i = mutex
      · rw [he,Function.update_self]
        exact hself.1
      · rw [Function.update_of_ne he]
    · rw [hm]
      by_cases he : i = mutex
      · rw [he,Function.update_self,hself.2]
      · rw [Function.update_of_ne he]

/-- A creation raises the count by one, whether its slot was free or not. -/
theorem createMutex_liveMutexes (hp : pid ≠ notUsed) (h : k.createMutex pid name thread = (r,k')) :
    (r = none ∧ k' = k) ∨ (r.isSome ∧ k.usedMutexes < maxMutexes ∧ name.length < maxName ∧
      k'.usedMutexes = k.usedMutexes+1 ∧ k'.semaphores = k.semaphores ∧
      k'.liveMutexes ≤ k.liveMutexes+1 ∧ (k.CachedFree → k'.liveMutexes = k.liveMutexes+1)) := by
  obtain ⟨rfl,-,rfl⟩ | ⟨rfl,hu,hn,hm,hused,-,hs,-,-⟩ := createMutex_cases h
  · exact Or.inl ⟨rfl,rfl⟩
  · refine Or.inr ⟨rfl,hu,hn,hused,hs,?_,?_⟩
    · have hsub : occupied (fun m : Mutex => m.creator.pid ≠ notUsed) maxMutexes.toNat
          (fun i => k'.mutexes i) ⊆ insert k.firstAvailableMutex.toNat
            (occupied (fun m : Mutex => m.creator.pid ≠ notUsed) maxMutexes.toNat
              (fun i => k.mutexes i)) := by
        intro i hi
        obtain ⟨hlt,hx⟩ := mem_occupied.mp hi
        by_cases he : (i : ℤ) = k.firstAvailableMutex
        · rw [← he]
          exact Finset.mem_insert_self _ _
        · rw [hm,Function.update_of_ne he] at hx
          exact Finset.mem_insert_of_mem (mem_occupied.mpr ⟨hlt,hx⟩)
      exact (Finset.card_le_card hsub).trans (Finset.card_insert_le _ _)
    · rintro ⟨hi,hf⟩
      obtain ⟨j,hj⟩ := Int.eq_ofNat_of_zero_le hi.1
      rw [hj] at hi hf hm
      have hlt : j < maxMutexes.toNat := by
        have := hi.2
        omega
      have hslots : (fun i : ℕ => k'.mutexes i) = Function.update (fun i : ℕ => k.mutexes i) j
          (named (k.mutexes j) name ⟨pid,thread⟩) := by
        funext i
        rw [hm]
        by_cases he : i = j
        · rw [he,Function.update_self,Function.update_self]
        · rw [Function.update_of_ne (by exact_mod_cast he),Function.update_of_ne he]
      have hfree : ¬ (k.mutexes j).creator.pid ≠ notUsed := not_not.mpr hf
      have hcard : (occupied (fun m : Mutex => m.creator.pid ≠ notUsed) maxMutexes.toNat
          (Function.update (fun i : ℕ => k.mutexes i) j (named (k.mutexes j) name ⟨pid,thread⟩))).card =
            k.liveMutexes+1 := card_update_used hlt hfree hp
      rw [← hslots] at hcard
      exact hcard

end Kernel

namespace Registry
open Kernel Call Runs
variable (s : Registry) (name : List UInt8)

structure Conserved : Prop where
  mutexes : s.kernel.usedMutexes = s.kernel.liveMutexes
  semaphores : s.usedSemaphores = s.kernel.liveSemaphores

def CachedFree : Prop := InSemaphores s.firstAvailableSemaphore ∧
  (s.kernel.semaphores s.firstAvailableSemaphore).creator.pid = notUsed

/-- If the semaphore gets as far as its slot, then it gets a mutex just when that slot was
free, and the mutex is got cleanly. -/
def SemaphoreClean : Prop :=
  s.usedSemaphores < maxSemaphores → name.length < maxName → s.kernel.GetsClean name ∧
    (s.CachedFree ↔ s.kernel.findMutex name ≠ none ∨ s.kernel.usedMutexes < maxMutexes)

def Calm : PoolCall → Prop
  | .createMutex _ name _ => s.kernel.CreatesClean name
  | .getMutex name _ _ => s.kernel.GetsClean name
  | .releaseMutex pid mutex thread => s.kernel.Harmless adminMutex ∧
      ¬ (s.kernel.isValidMutex mutex ∧ (s.kernel.mutexes mutex).creator = ⟨pid,thread⟩)
  | .createSemaphore _ name _ => s.SemaphoreClean name
  | .getSemaphore name _ _ => s.kernel.Harmless s.semaphoreMutex ∧
      (s.kernel.findSemaphore name = none → s.SemaphoreClean name)
  | .releaseSemaphore pid semaphore thread => s.kernel.Harmless s.semaphoreMutex ∧
      ¬ (s.kernel.isValidSemaphore semaphore ∧
        (s.kernel.semaphores semaphore).creator = ⟨pid,thread⟩)

variable {s name} {s' : Registry} {c : PoolCall} {k k' : Kernel} {pid thread : ℤ} {r : Option ℤ}

theorem conserved_of_sameSlots (h : SameSlots s.kernel s'.kernel)
    (hu : s'.usedSemaphores = s.usedSemaphores) (hc : s.Conserved) : s'.Conserved := by
  constructor
  · rw [h.usedMutexes,h.liveMutexes]
    exact hc.mutexes
  · rw [hu,hc.semaphores]
    unfold liveSemaphores
    rw [h.semaphores]

/-- A creation in a free slot counts once on both sides. -/
theorem createMutex_counts (hp : pid ≠ notUsed) (hc : k.CreatesClean name)
    (hk : k.usedMutexes = k.liveMutexes) (h : k.createMutex pid name thread = (r,k')) :
    k'.usedMutexes = k'.liveMutexes ∧ k'.semaphores = k.semaphores := by
  obtain ⟨-,rfl⟩ | ⟨-,hu,hn,hused,hs,-,hlive⟩ := createMutex_liveMutexes hp h
  · exact ⟨hk,rfl⟩
  · refine ⟨?_,hs⟩
    have := hlive (hc hu hn)
    omega

theorem getMutex_counts (hp : pid ≠ notUsed) (hg : s.kernel.GetsClean name)
    (hk : s.kernel.usedMutexes = s.kernel.liveMutexes)
    (h : getMutex name pid thread s = .ok (r,s')) :
    s'.kernel.usedMutexes = s'.kernel.liveMutexes ∧ s'.kernel.semaphores = s.kernel.semaphores ∧
      (name.length < maxName → (r.isSome ↔ s.kernel.findMutex name ≠ none ∨
        s.kernel.usedMutexes < maxMutexes)) := by
  obtain ⟨k,hd,hx⟩ := getMutex_ok h
  have hsame := mutexDown_sameSlots hg.1 hd
  have hcount : k.usedMutexes = k.liveMutexes := by
    rw [hsame.usedMutexes,hsame.liveMutexes]
    exact hk
  have hfind : k.findMutex name = s.kernel.findMutex name := hsame.findMutex
  rw [← hfind,← hsame.usedMutexes]
  obtain ⟨i,hf,rfl,rfl⟩ | ⟨hf,k₁,k₂,hc,hu,rfl⟩ := hx
  · refine ⟨hcount,hsame.semaphores,fun _ => ?_⟩
    simp [hf]
  · have hup := mutexUp_sameSlots hu
    have hgk := hsame.getsClean hg
    obtain ⟨hcount₁,hs₁⟩ := createMutex_counts hp (hgk.2 hf) hcount hc
    refine ⟨?_,hup.semaphores.trans (hs₁.trans hsame.semaphores),fun hn => ?_⟩
    · show k₂.usedMutexes = k₂.liveMutexes
      rw [hup.usedMutexes,hup.liveMutexes]
      exact hcount₁
    · obtain ⟨rfl,hx,-⟩ | ⟨rfl,hx,-⟩ := createMutex_cases hc
      · simp only [hf,ne_eq,not_true_eq_false,false_or,Option.isSome_none,Bool.false_eq_true,
          false_iff]
        exact fun hlt => hx ⟨hlt,hn⟩
      · simp [hx]

/-- The write of the creator takes the slot if it was free. -/
theorem claimSemaphore_liveSemaphores {n : List UInt8} {t : ThreadId} (hp : t.pid ≠ notUsed) :
    (s.CachedFree →
      (claimSemaphore t.pid n t.thread s).kernel.liveSemaphores = s.kernel.liveSemaphores+1) ∧
    (¬ s.CachedFree →
      (claimSemaphore t.pid n t.thread s).kernel.liveSemaphores = s.kernel.liveSemaphores) := by
  have hslots : (claimSemaphore t.pid n t.thread s).kernel.semaphores =
      Function.update s.kernel.semaphores s.firstAvailableSemaphore
        { s.kernel.semaphores s.firstAvailableSemaphore with
          name := fun i => n.getD i ((s.kernel.semaphores s.firstAvailableSemaphore).name i)
          creator := t } := rfl
  generalize (claimSemaphore t.pid n t.thread s).kernel = k at hslots ⊢
  constructor
  · rintro ⟨hi,hf⟩
    obtain ⟨j,hj⟩ := Int.eq_ofNat_of_zero_le hi.1
    rw [hj] at hi hf hslots
    have hlt : j < maxSemaphores.toNat := by
      have := hi.2
      omega
    have hnat : (fun i : ℕ => k.semaphores i) = Function.update (fun i : ℕ => s.kernel.semaphores i) j
        { s.kernel.semaphores j with
          name := fun i => n.getD i ((s.kernel.semaphores j).name i)
          creator := t } := by
      funext i
      rw [hslots]
      by_cases he : i = j
      · rw [he,Function.update_self,Function.update_self]
      · rw [Function.update_of_ne (by exact_mod_cast he),Function.update_of_ne he]
    have hfree : ¬ (s.kernel.semaphores j).creator.pid ≠ notUsed := not_not.mpr hf
    have hcard : (occupied (fun s : Semaphore => s.creator.pid ≠ notUsed) maxSemaphores.toNat
        (Function.update (fun i : ℕ => s.kernel.semaphores i) j { s.kernel.semaphores j with
          name := fun i => n.getD i ((s.kernel.semaphores j).name i)
          creator := t })).card = s.kernel.liveSemaphores+1 := card_update_used hlt hfree hp
    rw [← hnat] at hcard
    exact hcard
  · intro hx
    unfold liveSemaphores
    rw [occupied_congr]
    intro i hi
    rw [hslots]
    by_cases he : (i : ℤ) = s.firstAvailableSemaphore
    · rw [he,Function.update_self]
      have hin := inSemaphores_nat hi
      rw [he] at hin
      exact ⟨fun _ hf => hx ⟨hin,hf⟩,fun _ => hp⟩
    · rw [Function.update_of_ne he]

theorem completeSemaphore_liveSemaphores {mutex : ℤ} :
    (completeSemaphore mutex s).kernel.liveSemaphores = s.kernel.liveSemaphores := by
  have hslots : (completeSemaphore mutex s).kernel.semaphores =
      Function.update s.kernel.semaphores s.firstAvailableSemaphore
        { s.kernel.semaphores s.firstAvailableSemaphore with mutex := mutex } := rfl
  unfold liveSemaphores
  rw [occupied_congr]
  intro i hi
  rw [hslots]
  by_cases he : (i : ℤ) = s.firstAvailableSemaphore
  · rw [he,Function.update_self]
  · rw [Function.update_of_ne he]

theorem liveSemaphores_congr (h : k'.semaphores = k.semaphores) :
    k'.liveSemaphores = k.liveSemaphores := by
  unfold liveSemaphores
  rw [h]

theorem createSemaphore_conserved (hp : pid ≠ notUsed) (hs : s.SemaphoreClean name)
    (hc : s.Conserved) (h : createSemaphore pid name thread s = .ok (r,s')) : s'.Conserved := by
  obtain ⟨-,-,rfl⟩ | ⟨hu,hn,m,s₁,hg,hx⟩ := createSemaphore_ok h
  · exact hc
  · obtain ⟨hclean,hiff⟩ := hs hu hn
    obtain ⟨hmutexes,hsame,hgot⟩ := getMutex_counts (s := claimSemaphore pid name thread s) hp
      hclean hc.mutexes hg
    have hgot := hgot hn
    obtain ⟨htaken,hkept⟩ := claimSemaphore_liveSemaphores (s := s) (n := name)
      (t := ⟨pid,thread⟩) hp
    have hlive := liveSemaphores_congr hsame
    have hrest : s₁.usedSemaphores = s.usedSemaphores := by
      rw [getMutex_rest hg]
      rfl
    have hsem := hc.semaphores
    obtain ⟨rfl,-,rfl⟩ | ⟨mutex,rfl,-,rfl⟩ := hx
    · have hnot : ¬ s.CachedFree := fun hf => by simpa using hgot.mpr (hiff.mp hf)
      refine ⟨hmutexes,?_⟩
      rw [hrest,hsem,hlive,hkept hnot]
    · have hfree : s.CachedFree := hiff.mpr (hgot.mp rfl)
      refine ⟨hmutexes,?_⟩
      show s₁.usedSemaphores+1 = _
      rw [completeSemaphore_liveSemaphores,hrest,hsem,hlive,htaken hfree]
      push_cast
      ring

theorem SemaphoreClean.congr (h : SameSlots s.kernel k) (hs : s.SemaphoreClean name) :
    SemaphoreClean { s with kernel := k } name := by
  intro hu hn
  obtain ⟨hg,hiff⟩ := hs hu hn
  refine ⟨h.getsClean hg,?_⟩
  unfold CachedFree
  simp only [h.semaphores,h.findMutex,h.usedMutexes]
  exact hiff

theorem Conserved.congr (h : SameSlots s.kernel k) (hc : s.Conserved) :
    Conserved { s with kernel := k } :=
  conserved_of_sameSlots h rfl hc

theorem getSemaphore_conserved (hp : pid ≠ notUsed) (hh : s.kernel.Harmless s.semaphoreMutex)
    (hs : s.kernel.findSemaphore name = none → s.SemaphoreClean name) (hc : s.Conserved)
    (h : getSemaphore name pid thread s = .ok (r,s')) : s'.Conserved := by
  obtain ⟨k,hd,hx⟩ := getSemaphore_ok h
  have hsame := mutexDown_sameSlots hh hd
  have hck := hc.congr hsame
  obtain ⟨i,-,-,rfl⟩ | ⟨hf,s₁,k₂,hcreate,hu,rfl⟩ := hx
  · exact hck
  · have hnone : s.kernel.findSemaphore name = none := by
      unfold findSemaphore at hf ⊢
      rw [hsame.semaphores] at hf
      exact hf
    have hc₁ := createSemaphore_conserved hp ((hs hnone).congr hsame) hck hcreate
    exact hc₁.congr (mutexUp_sameSlots hu)

/-- The mark of the exchange gives nobody a mutex. -/
theorem mutexDown_creator {mutex i : ℤ} {t u : ThreadId} {o : DownOutcome} (hu : 0 < u.pid)
    (h : k.mutexDown mutex t = some (o,k')) (hc : (k'.mutexes i).creator = u) :
    (k.mutexes i).creator = u := by
  obtain ⟨-,-,rfl⟩ | ⟨-,-,m,ht,hm⟩ := mutexDown_cases h
  · exact hc
  · rw [hm] at hc
    by_cases he : i = mutex
    · subst he
      rw [marked_self] at hc
      cases ht <;> exact hc
    · obtain ⟨-,-,-,-,hx | ⟨-,hx⟩⟩ := marked_of_ne (k := k) (m := m) he
      · rw [← hx]
        exact hc
      · rw [hx] at hc
        rw [← hc] at hu
        exact absurd hu (by decide : ¬ (0 : ℤ) < 0)

theorem step_conserved (hc : s.Conserved) (hcalm : Calm s c) (h : step s c = some s') :
    s'.Conserved := by
  obtain ⟨hv,r,hx⟩ := step_eq_some.mp h
  have hp := hv.pid_ne
  cases c with
  | createMutex pid name thread =>
    obtain ⟨k,hk,rfl⟩ := createMutex_ok.mp hx
    obtain ⟨hcount,hs⟩ := createMutex_counts hp hcalm hc.mutexes hk
    refine ⟨hcount,?_⟩
    rw [liveSemaphores_congr hs]
    exact hc.semaphores
  | getMutex name pid thread =>
    obtain ⟨hcount,hs,-⟩ := getMutex_counts hp hcalm hc.mutexes hx
    refine ⟨hcount,?_⟩
    rw [liveSemaphores_congr hs,getMutex_rest hx]
    exact hc.semaphores
  | releaseMutex pid mutex thread =>
    obtain ⟨b,s₁,hr,hx⟩ := bind_ok.mp hx
    cases hx
    obtain ⟨k,k₁,k₂,hd,hb,hu,rfl⟩ := releaseMutex_ok hr
    have hsame := mutexDown_sameSlots hcalm.1 hd
    obtain ⟨-,-,rfl⟩ | ⟨-,hvalid,hcreator,-⟩ := releaseMutexBody_cases hb
    · exact hc.congr (hsame.trans (mutexUp_sameSlots hu))
    · have hin : InMutexes mutex := ⟨hvalid.1,hvalid.2.1⟩
      refine absurd ⟨⟨hin.1,hin.2,fun hn => hvalid.2.2 ((hsame.used _ hin).mpr hn)⟩,?_⟩ hcalm.2
      exact mutexDown_creator hv.1 hd hcreator
  | createSemaphore pid name thread => exact createSemaphore_conserved hp hcalm hc hx
  | getSemaphore name pid thread => exact getSemaphore_conserved hp hcalm.1 hcalm.2 hc hx
  | releaseSemaphore pid semaphore thread =>
    obtain ⟨b,s₁,hr,hx⟩ := bind_ok.mp hx
    cases hx
    obtain ⟨k,s₂,k₂,hd,hb,hu,rfl⟩ := releaseSemaphore_ok hr
    have hsame := mutexDown_sameSlots hcalm.1 hd
    obtain ⟨-,-,rfl⟩ | ⟨hvalid,hcreator,-⟩ := releaseSemaphoreBody_ok hb
    · exact (hc.congr hsame).congr (mutexUp_sameSlots hu)
    · unfold isValidSemaphore at hvalid
      simp only [hsame.semaphores] at hvalid hcreator
      exact absurd ⟨hvalid,hcreator⟩ hcalm.2

/-- The counters are right, and so a creation fails only where the slots are all in use. -/
structure Pooled (s : Registry) : Prop extends Conserved s where
  mutex : ∀ pid name thread, name.length < maxName → (s.kernel.liveMutexes : ℤ) < maxMutexes →
    (s.kernel.createMutex pid name thread).1.isSome
  semaphore : ∀ pid name thread r s', name.length < maxName →
    (s.kernel.liveMutexes : ℤ) < maxMutexes → (s.kernel.liveSemaphores : ℤ) < maxSemaphores →
    createSemaphore pid name thread s = .ok (r,s') → r.isSome

theorem Conserved.pooled (hc : s.Conserved) : s.Pooled := by
  refine ⟨hc,fun pid name thread hn hm => ?_,fun pid name thread r s' hn hm hs h => ?_⟩
  · rw [← hc.mutexes] at hm
    unfold Kernel.createMutex
    rw [if_pos ⟨hm,hn⟩]
    rfl
  · rw [← hc.mutexes] at hm
    rw [← hc.semaphores] at hs
    obtain ⟨hx,-⟩ | ⟨-,-,m,s₁,hg,⟨rfl,-,-⟩ | ⟨mutex,-,rfl,-⟩⟩ := createSemaphore_ok h
    · exact absurd ⟨hs,hn⟩ hx
    · obtain ⟨k,hd,⟨i,-,hx,-⟩ | ⟨-,k₁,k₂,hcreate,-⟩⟩ := getMutex_ok hg
      · cases hx
      · have hused : k.usedMutexes = s.kernel.usedMutexes := by
          obtain ⟨-,-,rfl⟩ | ⟨-,hr,-⟩ := mutexDown_cases hd
          · rfl
          · exact hr.usedMutexes
        obtain ⟨-,hx,-⟩ | ⟨hx,-⟩ := createMutex_cases hcreate
        · exact absurd ⟨hused ▸ hm,hn⟩ hx
        · cases hx
    · rfl

end Registry

namespace Kernel
variable {k k' : Kernel} {s s' : MutexTable} {l : TableStep} {pid : ℤ} {M : ℤ → Prop}

theorem liveMutexes_mono (h : ∀ i, InMutexes i → (k'.mutexes i).creator.pid ≠ notUsed →
    (k.mutexes i).creator.pid ≠ notUsed) : k'.liveMutexes ≤ k.liveMutexes := by
  apply Finset.card_le_card
  intro i hi
  obtain ⟨hlt,hx⟩ := mem_occupied.mp hi
  exact mem_occupied.mpr ⟨hlt,h i (inMutexes_nat hlt) hx⟩

theorem liveMutexes_update_le {mutex : ℤ} {m : Mutex}
    (hm : k'.mutexes = Function.update k.mutexes mutex m)
    (hc : m.creator.pid ≠ notUsed → (k.mutexes mutex).creator.pid ≠ notUsed) :
    k'.liveMutexes ≤ k.liveMutexes := by
  apply liveMutexes_mono
  intro i _ hx
  rw [hm] at hx
  by_cases he : i = mutex
  · subst he
    rw [Function.update_self] at hx
    exact hc hx
  · rw [Function.update_of_ne he] at hx
    exact hx

structure Overdrawn (k : Kernel) : Prop where
  guarded : k.Guarded
  count : (k.liveMutexes : ℤ) < k.usedMutexes

theorem Overdrawn.step (h : s.kernel.Overdrawn) (hp : 0 < pid) (hM : ∀ m, M m → m = 0 ∨ m = 1)
    (hl : l.By pid M) (hs : s.step l = some s') : s'.kernel.Overdrawn := by
  have hguarded := h.guarded.step (hl.byProcess hp) hs
  refine ⟨hguarded,?_⟩
  have hcount := h.count
  cases l with
  | createMutex pid name thread =>
    obtain ⟨⟨hpid,-⟩,hs⟩ := Option.ite_none_right_eq_some.mp hs
    obtain ⟨r,k,hk⟩ : ∃ r k, s.kernel.createMutex pid name thread = (r,k) := ⟨_,_,rfl⟩
    simp only [hk,Option.some.injEq] at hs
    subst hs
    obtain ⟨-,rfl⟩ | ⟨-,-,-,hused,-,hlive,-⟩ := createMutex_liveMutexes hpid hk
    · exact hcount
    · show (k.liveMutexes : ℤ) < k.usedMutexes
      omega
  | mutexDown mutex t =>
    obtain ⟨-,hs⟩ := Option.ite_none_right_eq_some.mp hs
    obtain ⟨⟨o,k⟩,hk,rfl⟩ := Option.map_eq_some_iff.mp hs
    have hh : s.kernel.Harmless mutex := by
      intro _ _
      have hrange := hM mutex hl.2
      rw [h.guarded.creator (mutex+1) (by omega) (by omega)]
      decide
    have hsame := mutexDown_sameSlots hh hk
    show (k.liveMutexes : ℤ) < k.usedMutexes
    rw [hsame.liveMutexes,hsame.usedMutexes]
    exact hcount
  | mutexUp mutex t =>
    obtain ⟨k,hk,rfl⟩ := Option.map_eq_some_iff.mp hs
    have hsame := mutexUp_sameSlots hk
    show (k.liveMutexes : ℤ) < k.usedMutexes
    rw [hsame.liveMutexes,hsame.usedMutexes]
    exact hcount
  | releaseMutex mutex t =>
    obtain ⟨⟨b,k⟩,hk,rfl⟩ := Option.map_eq_some_iff.mp hs
    obtain ⟨-,-,rfl⟩ | ⟨-,-,-,hr,m,hm,hfree,-⟩ := releaseMutexBody_cases hk
    · exact hcount
    · have hle := liveMutexes_update_le hm (fun hx => absurd hfree hx)
      show (k.liveMutexes : ℤ) < k.usedMutexes
      rw [hr.usedMutexes]
      omega
  | unlockProcess mutex =>
    obtain ⟨-,hs⟩ := Option.ite_none_right_eq_some.mp hs
    obtain ⟨⟨b,k⟩,hk,rfl⟩ := Option.map_eq_some_iff.mp hs
    obtain ⟨-,-,rfl⟩ | ⟨-,hr,w,l,-,hm⟩ := unlockProcess_cases hk
    · exact hcount
    · have hle := liveMutexes_update_le hm id
      show (k.liveMutexes : ℤ) < k.usedMutexes
      rw [hr.usedMutexes]
      omega
  | removeBlocked v mutex j => exact hl.elim
  | other k =>
    cases hs
    exact hcount

end Kernel

namespace Registry
open Kernel Call Runs
variable {s s₀ : Registry} {ls : List PoolCall}

theorem Booted.liveMutexes (h : s.Booted) : s.kernel.liveMutexes = 3 := by
  have hocc : occupied (fun m : Mutex => m.creator.pid ≠ notUsed) maxMutexes.toNat
      (fun i => s.kernel.mutexes i) = {0,1,2} := by
    ext i
    rw [mem_occupied]
    constructor
    · rintro ⟨hi,hx⟩
      by_contra hn
      simp only [Finset.mem_insert,Finset.mem_singleton,not_or] at hn
      rw [h.mutexes i (inMutexes_nat hi),bootMutex,if_neg (by omega),if_neg (by omega),
        if_neg (by omega)] at hx
      exact hx rfl
    · intro hi
      simp only [Finset.mem_insert,Finset.mem_singleton] at hi
      have hlt : i < maxMutexes.toNat := by
        rcases hi with rfl | rfl | rfl <;> decide
      refine ⟨hlt,?_⟩
      rw [h.mutexes i (inMutexes_nat hlt)]
      rcases hi with rfl | rfl | rfl <;> decide
  unfold Kernel.liveMutexes
  rw [hocc]
  rfl

theorem Booted.overdrawn (h : s.Booted) : s.kernel.Overdrawn := by
  refine ⟨h.guarded,?_⟩
  rw [h.liveMutexes,h.usedMutexes]
  decide

/-- After the boot the counter of the mutexes stays ahead. -/
theorem run_overdrawn (h : s₀.Booted) (hr : run step s₀ ls = some s) : s.kernel.Overdrawn := by
  refine (Runs.invariant (I := fun s : Registry => s.semaphoreMutex = 1 ∧ s.kernel.Overdrawn) ?_
    ⟨h.semaphoreMutex,h.overdrawn⟩ hr).2
  rintro s c s' ⟨hsem,hI⟩ hs
  refine ⟨(step_semaphoreMutex hs).trans hsem,?_⟩
  have hp := (step_eq_some.mp hs).1.1
  have hM : ∀ m, s.Internal m → m = 0 ∨ m = 1 := by
    rintro m (hm | hm)
    · exact Or.inl hm
    · exact Or.inr (hm.trans hsem)
  exact ((step_reaches hs).invariant (I := fun t => t.kernel.Overdrawn)
    (fun t l t' hI hl ht => hI.step hp hM hl ht) ∅ hI).choose_spec

/-- The boot leaves a counter that is wrong, and no run of calls ever puts it right. From
counters that are right, calm calls keep them right, and creations succeed while there is
room. -/
theorem pools_conserved {s₀ : Registry} {ls : List PoolCall} (hm : main static = .ok ((),s₀))
    (hr : run step s₀ ls = some s) : ¬ s.Conserved ∧
      ∀ t ls, t.Conserved → Along step Calm t ls → Always step Pooled t ls := by
  constructor
  · intro hc
    obtain ⟨s₁,hs₁,hboot⟩ := main_booted
    rw [hs₁] at hm
    cases hm
    have hcount := (run_overdrawn hboot hr).count
    rw [hc.mutexes] at hcount
    exact lt_irrefl _ hcount
  · intro t ls ht hc
    exact hc.always (fun _ _ _ => step_conserved) (fun _ => Conserved.pooled) ht

def blank : Registry := { static with kernel := { Kernel.static with
  mutexes := fun _ => clearedMutex
  semaphores := fun _ => clearedSemaphore
  firstAvailableMutex := 0
  usedMutexes := 0 } }

theorem blank_conserved : blank.Conserved := by
  have hm : occupied (fun m : Mutex => m.creator.pid ≠ notUsed) maxMutexes.toNat
      (fun i => blank.kernel.mutexes i) = ∅ :=
    Finset.filter_false_of_mem (fun _ _ hx => hx rfl)
  have hs : occupied (fun s : Semaphore => s.creator.pid ≠ notUsed) maxSemaphores.toNat
      (fun i => blank.kernel.semaphores i) = ∅ :=
    Finset.filter_false_of_mem (fun _ _ hx => hx rfl)
  constructor
  · unfold Kernel.liveMutexes
    rw [hm]
    rfl
  · unfold Kernel.liveSemaphores
    rw [hs]
    rfl

/-- Right after the boot the counters are wrong; in a table with nothing in use a first
mutex counts right. -/
theorem pools_conserved_boot : ∃ s, main static = .ok ((),s) ∧ ¬ s.Conserved ∧
    Always step Pooled blank [.createMutex 1 [109] 0] := by
  have hfree : blank.kernel.CachedFree := ⟨by decide,rfl⟩
  obtain ⟨s,hs,-⟩ := main_booted
  obtain ⟨hwrong,hcalm⟩ := pools_conserved hs (run_nil s)
  exact ⟨s,hs,hwrong,hcalm _ _ blank_conserved ⟨fun _ _ => hfree,fun _ _ => trivial⟩⟩

/-- The boot has counted four creations and has three mutexes. -/
theorem pools_conserved_fails : ∃ s, main static = .ok ((),s) ∧ s.kernel.usedMutexes = 4 ∧
    s.kernel.liveMutexes = 3 ∧ ¬ s.Conserved := by
  obtain ⟨s,hs,hb⟩ := main_booted
  refine ⟨s,hs,hb.usedMutexes,hb.liveMutexes,fun hc => ?_⟩
  have hcount := hc.mutexes
  rw [hb.usedMutexes,hb.liveMutexes] at hcount
  exact absurd hcount (by decide)

end Registry
end ComplexOS
