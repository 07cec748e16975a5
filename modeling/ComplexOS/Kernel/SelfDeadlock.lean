import ComplexOS.Kernel.KillCalls
import ComplexOS.Kernel.LockBalance
import Mathlib.Data.List.TakeWhile

/-! # Calls that wait for themselves

Every call keeps to the two locks of the tables, so that it is enough to know who holds them
between its pieces. A cleanup releases in the victim's name what the victim has created, and
it has taken the lock of the table in that name already.
-/
namespace ComplexOS
open Kernel Call

def Mutex.HeldBy (m : Mutex) (holder : Option ThreadId) : Prop :=
  m.list.Holds ∅ ∧ match holder with
    | none => m.value = unlocked
    | some t => m.value = locked ∧ m.lockProcess = t

namespace Mutex.HeldBy
variable {m m' : Mutex} {a : Option ThreadId} {t u : ThreadId} {i : ℤ} {k k' : Kernel}

theorem pop (h : m.HeldBy a) : m.list.pop = none := h.1.pop_empty

theorem givenUp (h : m.HeldBy a) (hg : GivenUp m m') : m'.HeldBy none := by
  cases hg with
  | free hp => exact ⟨h.1,rfl⟩
  | handed hp =>
    rw [h.pop] at hp
    cases hp

end Mutex.HeldBy

namespace Registry
variable {s s' : Registry} {a a' b b' : Option ThreadId} {c d : ℤ → ThreadId} {m i pid thread : ℤ}
  {t u : ThreadId} {v : Victim} {j : ℕ} {α : Type}

/-- The call waits for a lock of the kernel in the name of its holder. -/
def SelfDeadlocks (x : KernelCall α) (s : Registry) : Prop :=
  ∃ m t, s.KernelLock m ∧ x s = .error (.waits m t t)

structure Locks (a b : Option ThreadId) (s : Registry) : Prop where
  guarded : s.kernel.Guarded
  semaphoreMutex : s.semaphoreMutex = 1
  buddyMutex : s.buddyMutex = adminMutex
  admin : (s.kernel.mutexes adminMutex).HeldBy a
  semaphore : (s.kernel.mutexes 1).HeldBy b

def MutexCreators (c : ℤ → ThreadId) (s : Registry) : Prop := ∀ i, (s.kernel.mutexes i).creator = c i

def SemaphoreCreators (d : ℤ → ThreadId) (s : Registry) : Prop :=
  ∀ i, (s.kernel.semaphores i).creator = d i

theorem Sane.locks (h : s.Sane) (hu : s.Unlocked) : Locks none none s := by
  have hlow := h.unlocked_iff.mp hu
  have hheld : ∀ m, 0 ≤ m → m ≤ 2 → (s.kernel.mutexes m).HeldBy none := fun m h0 h2 =>
    ⟨(h.sound m ⟨h0,h2.trans_lt (by decide)⟩).holds_empty (hlow m h0 h2),hlow m h0 h2⟩
  exact ⟨h.guarded,h.semaphoreMutex,h.buddyMutex,hheld _ (by decide) (by decide),
    hheld _ (by decide) (by decide)⟩

/-- A call that stops at nothing but a NULL pointer, or in a loop without end. -/
abbrev Total (P : Registry → Prop) (x : KernelCall α) (Q : α → Registry → Prop) : Prop :=
  Spec P x Q (· = .fails)

theorem piece_total {P Q : Registry → Prop} {g : Kernel → Option Kernel}
    (h : ∀ s k, P s → g s.kernel = some k → Q { s with kernel := k }) :
    Total P (piece g) (fun _ => Q) := by
  refine ⟨fun s u s' hp hx => ?_,fun s e _ hx => (partly_error.mp hx).2⟩
  obtain ⟨k,hk,rfl⟩ := piece_ok.mp hx
  exact h s k hp hk

namespace Locks

theorem with_admin (h : Locks a b s) {w : ℤ}
    (ha : ({ s.kernel.mutexes adminMutex with value := w, lockProcess := t } : Mutex).HeldBy a') :
    Locks a' b { s with kernel := s.kernel.lockSlot adminMutex w t } := by
  refine ⟨h.guarded.lockSlot,h.semaphoreMutex,h.buddyMutex,?_,?_⟩
  · show ((s.kernel.lockSlot adminMutex w t).mutexes adminMutex).HeldBy a'
    rw [lockSlot_self]
    exact ha
  · show ((s.kernel.lockSlot adminMutex w t).mutexes 1).HeldBy b
    rw [lockSlot_of_ne (by decide)]
    exact h.semaphore

theorem with_semaphore (h : Locks a b s) {w : ℤ}
    (hb : ({ s.kernel.mutexes 1 with value := w, lockProcess := t } : Mutex).HeldBy b') :
    Locks a b' { s with kernel := s.kernel.lockSlot 1 w t } := by
  refine ⟨h.guarded.lockSlot,h.semaphoreMutex,h.buddyMutex,?_,?_⟩
  · show ((s.kernel.lockSlot 1 w t).mutexes adminMutex).HeldBy a
    rw [lockSlot_of_ne (by decide)]
    exact h.admin
  · show ((s.kernel.lockSlot 1 w t).mutexes 1).HeldBy b'
    rw [lockSlot_self]
    exact hb

/-- A piece of code that writes one slot. -/
theorem update (h : Locks a b s) {k : Kernel} {x : Mutex} (hr : SameRest s.kernel k)
    (hm : k.mutexes = Function.update s.kernel.mutexes i x)
    (hlow : 0 ≤ i → i ≤ 2 → x.creator = ⟨0,0⟩) (ha : i = adminMutex → x.HeldBy a)
    (hb : i = 1 → x.HeldBy b) : Locks a b { s with kernel := k } := by
  refine ⟨h.guarded.congr (fun l h0 h2 => ?_) hr.firstAvailableMutex,h.semaphoreMutex,h.buddyMutex,
    ?_,?_⟩
  · rw [hm]
    by_cases he : l = i
    · subst he
      rw [Function.update_self,hlow h0 h2,h.guarded.creator l h0 h2]
    · rw [Function.update_of_ne he]
  · show (k.mutexes adminMutex).HeldBy a
    rw [hm]
    by_cases he : adminMutex = i
    · subst he
      rw [Function.update_self]
      exact ha rfl
    · rw [Function.update_of_ne he]
      exact h.admin
  · show (k.mutexes 1).HeldBy b
    rw [hm]
    by_cases he : 1 = i
    · subst he
      rw [Function.update_self]
      exact hb rfl
    · rw [Function.update_of_ne he]
      exact h.semaphore

end Locks

def OfCreators (P : Registry → Prop) : Prop := ∀ ⦃s s' : Registry⦄, P s →
  (∀ i, (s'.kernel.mutexes i).creator = (s.kernel.mutexes i).creator) →
  (∀ i, (s'.kernel.semaphores i).creator = (s.kernel.semaphores i).creator) → P s'

theorem mutexCreators_ofCreators : OfCreators (MutexCreators c) :=
  fun _ _ h hm _ i => (hm i).trans (h i)

theorem semaphoreCreators_ofCreators : OfCreators (SemaphoreCreators d) :=
  fun _ _ h _ hs i => (hs i).trans (h i)

theorem OfCreators.and {P Q : Registry → Prop} (hP : OfCreators P) (hQ : OfCreators Q) :
    OfCreators (fun s => P s ∧ Q s) :=
  fun _ _ h hm hs => ⟨hP h.1 hm hs,hQ h.2 hm hs⟩

variable {P : Registry → Prop}

/-! ### The locks are taken, met and given up -/

theorem adminDown_spec (hP : OfCreators P) : Spec (fun s => Locks none b s ∧ P s)
    (mutexDown adminMutex t) (fun _ s => Locks (some t) b s ∧ P s) (fun _ => False) := by
  have hcall : ∀ s, Locks none b s → mutexDown adminMutex t s = _ := fun s h =>
    mutexDown_guarded h.guarded (by decide) (by decide) (by rw [h.admin.2]; decide)
  constructor
  · rintro s u s' ⟨h,hp⟩ hx
    rw [hcall s h] at hx
    cases hx
    exact ⟨h.with_admin ⟨h.admin.1,rfl,rfl⟩,hP hp (fun _ => lockSlot_creator) (fun _ => rfl)⟩
  · rintro s e ⟨h,-⟩ hx
    rw [hcall s h] at hx
    cases hx

theorem adminDown_held : Spec (Locks (some u) b) (mutexDown adminMutex t) (fun _ _ => False)
    (· = .waits adminMutex t u) := by
  have hcall : ∀ s, Locks (some u) b s → mutexDown adminMutex t s = .error (.waits adminMutex t u) := by
    intro s h
    rw [mutexDown_waits (h.guarded.valid (by decide) (by decide)) h.admin.2.1,h.admin.2.2]
  constructor
  · intro s x s' h hx
    rw [hcall s h] at hx
    cases hx
  · intro s e h hx
    rw [hcall s h] at hx
    cases hx
    rfl

theorem adminUp_spec (hP : OfCreators P) : Spec (fun s => Locks (some t) b s ∧ P s)
    (mutexUp adminMutex t) (fun _ s => Locks none b s ∧ P s) (fun _ => False) := by
  have hcall : ∀ s, Locks (some t) b s → mutexUp adminMutex t s = .ok ((),{ s with
      kernel := s.kernel.lockSlot adminMutex unlocked t }) := fun s h =>
    mutexUp_ok.mpr ⟨_,mutexUp_held h.guarded (by decide) (by decide) h.admin.2.2 h.admin.pop,rfl⟩
  constructor
  · rintro s x s' ⟨h,hp⟩ hx
    rw [hcall s h] at hx
    cases hx
    exact ⟨h.with_admin ⟨h.admin.1,rfl⟩,hP hp (fun _ => lockSlot_creator) (fun _ => rfl)⟩
  · rintro s e ⟨h,-⟩ hx
    rw [hcall s h] at hx
    cases hx

theorem semaphoreDown_spec (hP : OfCreators P) : Spec (fun s => Locks a none s ∧ P s)
    (mutexDown 1 t) (fun _ s => Locks a (some t) s ∧ P s) (fun _ => False) := by
  have hcall : ∀ s, Locks a none s → mutexDown 1 t s = _ := fun s h =>
    mutexDown_guarded h.guarded (by decide) le_rfl (by rw [h.semaphore.2]; decide)
  constructor
  · rintro s u s' ⟨h,hp⟩ hx
    rw [hcall s h] at hx
    cases hx
    exact ⟨h.with_semaphore ⟨h.semaphore.1,rfl,rfl⟩,
      hP hp (fun _ => lockSlot_creator) (fun _ => rfl)⟩
  · rintro s e ⟨h,-⟩ hx
    rw [hcall s h] at hx
    cases hx

theorem semaphoreDown_held : Spec (Locks a (some u)) (mutexDown 1 t) (fun _ _ => False)
    (· = .waits 1 t u) := by
  have hcall : ∀ s, Locks a (some u) s → mutexDown 1 t s = .error (.waits 1 t u) := by
    intro s h
    rw [mutexDown_waits (h.guarded.valid (by decide) (by decide)) h.semaphore.2.1,h.semaphore.2.2]
  constructor
  · intro s x s' h hx
    rw [hcall s h] at hx
    cases hx
  · intro s e h hx
    rw [hcall s h] at hx
    cases hx
    rfl

theorem semaphoreUp_spec (hP : OfCreators P) : Spec (fun s => Locks a (some t) s ∧ P s)
    (mutexUp 1 t) (fun _ s => Locks a none s ∧ P s) (fun _ => False) := by
  have hcall : ∀ s, Locks a (some t) s → mutexUp 1 t s = .ok ((),{ s with
      kernel := s.kernel.lockSlot 1 unlocked t }) := fun s h =>
    mutexUp_ok.mpr ⟨_,mutexUp_held h.guarded (by decide) (by decide) h.semaphore.2.2
      h.semaphore.pop,rfl⟩
  constructor
  · rintro s x s' ⟨h,hp⟩ hx
    rw [hcall s h] at hx
    cases hx
    exact ⟨h.with_semaphore ⟨h.semaphore.1,rfl⟩,hP hp (fun _ => lockSlot_creator) (fun _ => rfl)⟩
  · rintro s e ⟨h,-⟩ hx
    rw [hcall s h] at hx
    cases hx

/-! ### Releases -/

theorem releaseMutexBody_total (hu : 0 < u.pid) :
    Total (fun s => Locks a b s ∧ SemaphoreCreators d s) (releaseMutexBody m u)
      (fun _ s => Locks a b s ∧ SemaphoreCreators d s) := by
  refine ⟨fun s r s' hp hx => ?_,fun s e _ hx => (partly_error.mp hx).2⟩
  obtain ⟨k,hk,rfl⟩ := releaseMutexBody_ok.mp hx
  obtain ⟨-,-,rfl⟩ | ⟨-,hv,hc,hr,x,hm,-⟩ := releaseMutexBody_cases hk
  · exact hp
  · have hne : ∀ l, 0 ≤ l → l ≤ 2 → m ≠ l := fun l h0 h2 he =>
      hp.1.guarded.creator_ne h0 h2 hu (he ▸ hc)
    refine ⟨hp.1.update hr hm (fun h0 h2 => absurd rfl (hne m h0 h2))
      (fun he => absurd he (hne adminMutex (by decide) (by decide)))
      (fun he => absurd he (hne 1 (by decide) (by decide))),fun i => ?_⟩
    show (k.semaphores i).creator = d i
    rw [hr.semaphores]
    exact hp.2 i

theorem releaseMutex_total (hpid : 0 < pid) :
    Total (fun s => Locks none b s ∧ SemaphoreCreators d s) (releaseMutex pid m thread)
      (fun _ s => Locks none b s ∧ SemaphoreCreators d s) := by
  unfold releaseMutex
  apply ((adminDown_spec semaphoreCreators_ofCreators).conseq (fun _ h => h) (fun _ _ h => h)
    (fun _ h => h.elim)).bind
  intro _
  apply (releaseMutexBody_total hpid).bind
  intro r
  apply ((adminUp_spec semaphoreCreators_ofCreators).conseq (fun _ h => h) (fun _ _ h => h)
    (fun _ h => h.elim)).bind
  exact fun _ => Spec.pure (fun _ h => h)

theorem releaseMutex_locks (hpid : 0 < pid) :
    Total (Locks none b) (releaseMutex pid m thread) (fun _ => Locks none b) := by
  refine ⟨fun s r s' h hx => ?_,fun s e h hx => ?_⟩
  · exact ((releaseMutex_total hpid).ok s r s' ⟨h,fun _ => rfl⟩ hx).1
  · exact (releaseMutex_total hpid).error s e ⟨h,fun _ => rfl⟩ hx

theorem releaseMutex_held : Spec (Locks (some u) b) (releaseMutex pid m thread) (fun _ _ => False)
    (· = .waits adminMutex ⟨pid,thread⟩ u) :=
  adminDown_held.bind (fun _ => Spec.of_false)

/-- A wake-up from a slot, which is not one where nobody waits. -/
theorem Locks.unlockProcess (h : Locks a b s) {k : Kernel} {w : Bool}
    (hk : s.kernel.unlockProcess i = some (w,k)) : Locks a b { s with kernel := k } := by
  obtain ⟨-,-,rfl⟩ | ⟨-,hr,w,l,hp,hm⟩ := unlockProcess_cases hk
  · exact h
  · refine h.update hr hm (fun h0 h2 => h.guarded.creator i h0 h2) (fun he => ?_) (fun he => ?_)
    · rw [he,h.admin.pop] at hp
      cases hp
    · rw [he,h.semaphore.pop] at hp
      cases hp

theorem Locks.unlockAllSemaphore (h : Locks a b s) {n : ℕ} {k : Kernel}
    (hk : unlockAllSemaphore i n s.kernel = some k) : Locks a b { s with kernel := k } := by
  induction n generalizing s with
  | zero =>
    unfold Kernel.unlockAllSemaphore at hk
    split at hk
    · cases hk
    · cases hk
      exact h
  | succ n ih =>
    unfold Kernel.unlockAllSemaphore at hk
    split at hk
    · obtain ⟨⟨w,k₁⟩,hk₁,hk⟩ := Option.bind_eq_some_iff.mp hk
      exact ih (s := { s with kernel := k₁ }) (h.unlockProcess hk₁) hk
    · cases hk
      exact h

theorem releaseSemaphoreBody_total (hu : 0 < u.pid) :
    Total (Locks none b) (releaseSemaphoreBody i u) (fun _ => Locks none b) := by
  unfold releaseSemaphoreBody
  apply Spec.get_bind
  intro s₀
  split
  · have hrelease : Total (fun s => Locks none b s ∧ s = s₀)
        (releaseMutex u.pid (s₀.kernel.semaphores i).mutex u.thread) (fun _ => Locks none b) :=
      (releaseMutex_total hu).conseq
        (fun s h => ⟨h.1,fun i => congrArg (fun s => (s.kernel.semaphores i).creator) h.2⟩)
        (fun _ _ h => h.1) (fun _ h => h)
    apply hrelease.bind
    intro r
    have hdisown : Total (Locks none b)
        (modify (fun s => { s with kernel := s.kernel.disownSemaphore i })) (fun _ => Locks none b) :=
      Spec.update (fun s h => ⟨h.1.congr (fun _ _ _ => rfl) rfl,h.2,h.3,h.4,h.5⟩)
    apply hdisown.bind
    intro _
    apply (piece_total (fun _ _ h hk => h.unlockAllSemaphore hk)).bind
    exact fun _ => Spec.pure (fun _ h => h)
  · exact Spec.pure (fun _ h => h.1)

theorem releaseSemaphore_total (hpid : 0 < pid) :
    Total (Locks none none) (releaseSemaphore pid i thread) (fun _ => Locks none none) := by
  unfold releaseSemaphore
  apply Spec.get_bind
  intro s₀
  apply Spec.of_pre
  rintro s ⟨h,rfl⟩
  rw [h.semaphoreMutex]
  have htrue : OfCreators (fun _ => True) := fun _ _ _ _ _ => trivial
  apply ((semaphoreDown_spec htrue).conseq (fun _ h => ⟨h.1,trivial⟩) (fun _ _ h => h.1)
    (fun _ h => h.elim)).bind
  intro _
  apply (releaseSemaphoreBody_total hpid).bind
  intro r
  apply ((semaphoreUp_spec htrue).conseq (fun _ h => ⟨h,trivial⟩) (fun _ _ h => h.1)
    (fun _ h => h.elim)).bind
  exact fun _ => Spec.pure (fun _ h => h)

theorem releaseSemaphore_held : Spec (Locks a (some u)) (releaseSemaphore pid i thread)
    (fun _ _ => False) (· = .waits 1 ⟨pid,thread⟩ u) := by
  unfold releaseSemaphore
  apply Spec.get_bind
  intro s₀
  apply Spec.of_pre
  rintro s ⟨h,rfl⟩
  rw [h.semaphoreMutex]
  apply (semaphoreDown_held.conseq (fun _ h => h.1) (fun _ _ h => h) (fun _ h => h)).bind
  exact fun _ => Spec.of_false

/-! ### Sweeps -/

/-- A victim has not created the locks of the tables. -/
theorem Locks.uncovered (h : Locks a b s) (hv : 0 < v.pid) (h0 : 0 ≤ i) (h2 : i ≤ 2) :
    ¬ v.Covers (s.kernel.mutexes i).creator := by
  rw [h.guarded.creator i h0 h2]
  exact fun hc => absurd hc.1 (ne_of_lt hv)

theorem creator_update {k : Kernel} {x : Mutex} (hm : k.mutexes = Function.update s.kernel.mutexes m x)
    (hx : x.creator = (s.kernel.mutexes m).creator) :
    (k.mutexes i).creator = (s.kernel.mutexes i).creator := by
  rw [hm]
  by_cases he : i = m
  · subst he
    rw [Function.update_self,hx]
  · rw [Function.update_of_ne he]

theorem removeBlockedFromMutex_total (hP : OfCreators P) (hj : j < maxBlocked) :
    Total (fun s => Locks a b s ∧ P s) (removeBlockedFromMutex v i j)
      (fun _ s => Locks a b s ∧ P s) := by
  apply piece_total
  rintro s k ⟨h,hp⟩ hk
  obtain ⟨-,rfl⟩ | ⟨hc,hr,hm⟩ := removeBlockedFromMutex_cases hk
  · exact ⟨h,hp⟩
  · have hused : ((s.kernel.mutexes i).list.blocked j).used := fun he => v.used (hc.1.symm.trans he)
    have hidle : ∀ a, ¬ (s.kernel.mutexes i).HeldBy a := fun a hx =>
      Finset.notMem_empty _ (hx.1.entry j hj hused)
    refine ⟨h.update hr hm (fun h0 h2 => h.guarded.creator i h0 h2) (fun he => ?_) (fun he => ?_),
      hP hp (fun _ => creator_update hm rfl) (fun _ => by rw [hr.semaphores])⟩
    · exact absurd (he ▸ h.admin) (hidle a)
    · exact absurd (he ▸ h.semaphore) (hidle b)

/-- A lock of the tables is held in another name than that of its holder's pid. -/
def Unlike (v : Victim) (a : Option ThreadId) : Prop := a ≠ some ⟨v.pid,v.pid⟩

theorem heldBy_up {x y : Mutex} (hg : GivenUp x y) (hl : v.Covers x.lockProcess)
    (hx : x.lockProcess = ⟨v.pid,x.lockProcess.pid⟩) (h : x.HeldBy a) (ha : Unlike v a) :
    y.HeldBy a := by
  cases a with
  | none => exact h.givenUp hg
  | some t =>
    refine absurd ?_ ha
    rw [← h.2.2,hx]
    rw [show x.lockProcess.pid = v.pid from hl.1]

theorem upHeldMutex_total (hP : OfCreators P) (ha : Unlike v a) (hb : Unlike v b) :
    Total (fun s => Locks a b s ∧ P s) (upHeldMutex v i) (fun _ s => Locks a b s ∧ P s) := by
  unfold upHeldMutex
  apply Spec.get_bind
  intro s₀
  split
  · rename_i hcover
    apply piece_total
    rintro s k ⟨⟨h,hp⟩,rfl⟩ hk
    obtain ⟨-,rfl⟩ | ⟨-,hl,hr,x,hg,hm⟩ := mutexUp_cases hk
    · exact ⟨h,hp⟩
    · have hx : x.creator = (s.kernel.mutexes i).creator := by cases hg <;> rfl
      refine ⟨h.update hr hm (fun h0 h2 => hx.trans (h.guarded.creator i h0 h2)) (fun he => ?_)
        (fun he => ?_),hP hp (fun _ => creator_update hm hx) (fun _ => by rw [hr.semaphores])⟩
      · exact heldBy_up hg hcover hl (he ▸ h.admin) ha
      · exact heldBy_up hg hcover hl (he ▸ h.semaphore) hb
  · exact Spec.pure (fun _ h => h.1)

/-- A round at a slot of somebody else. -/
theorem sweepMutex_uncovered {i : ℕ} (hP : OfCreators P) (hc : ∀ s, P s → ¬ v.Covers (s.kernel.mutexes i).creator)
    (ha : Unlike v a) (hb : Unlike v b) :
    Total (fun s => Locks a b s ∧ P s) (sweepMutex v t i) (fun _ s => Locks a b s ∧ P s) := by
  have howned : Total (fun s => Locks a b s ∧ P s) (releaseOwnedMutex v t i)
      (fun _ s => Locks a b s ∧ P s) := by
    unfold releaseOwnedMutex
    apply Spec.get_bind
    intro s₀
    apply Spec.of_pre
    rintro s ⟨h,rfl⟩
    rw [if_neg (hc s h.2)]
    exact Spec.pure (fun _ h => h.1)
  unfold sweepMutex
  apply howned.bind
  intro _
  apply (upHeldMutex_total hP ha hb).bind
  intro _
  exact Spec.forM_mem (fun j hj => removeBlockedFromMutex_total hP (List.mem_range.mp hj))

/-- At a slot of the victim the call waits for itself. -/
theorem sweepMutex_held {i : ℕ} (hc : ∀ s, P s → v.Covers (s.kernel.mutexes i).creator) :
    Spec (fun s => Locks (some t) b s ∧ P s) (sweepMutex v t i) (fun _ _ => False)
      (· = .waits adminMutex t t) := by
  have howned : Spec (fun s => Locks (some t) b s ∧ P s) (releaseOwnedMutex v t i) (fun _ _ => False)
      (· = .waits adminMutex t t) := by
    unfold releaseOwnedMutex
    apply Spec.get_bind
    intro s₀
    apply Spec.of_pre
    rintro s ⟨h,rfl⟩
    rw [if_pos (hc s h.2)]
    apply (releaseMutex_held.conseq (fun _ h => h.1.1) (fun _ _ h => h) (fun _ h => h)).bind
    exact fun _ => Spec.of_false
  unfold sweepMutex
  apply howned.bind
  exact fun _ => Spec.of_false

/-- With `adminMutex` open a release comes back. -/
theorem sweepMutex_open {i : ℕ} (ht : 0 < t.pid) :
    Total (fun s => Locks none none s ∧ SemaphoreCreators d s) (sweepMutex v t i)
      (fun _ s => Locks none none s ∧ SemaphoreCreators d s) := by
  have hnone : Unlike v none := fun h => by cases h
  have howned : Total (fun s => Locks none none s ∧ SemaphoreCreators d s) (releaseOwnedMutex v t i)
      (fun _ s => Locks none none s ∧ SemaphoreCreators d s) := by
    unfold releaseOwnedMutex
    apply Spec.get_bind
    intro s₀
    split
    · apply ((releaseMutex_total ht).conseq (fun _ h => h.1) (fun _ _ h => h) (fun _ h => h)).bind
      exact fun _ => Spec.pure (fun _ h => h)
    · exact Spec.pure (fun _ h => h.1)
  unfold sweepMutex
  apply howned.bind
  intro _
  apply (upHeldMutex_total semaphoreCreators_ofCreators hnone hnone).bind
  intro _
  exact Spec.forM_mem (fun j hj =>
    removeBlockedFromMutex_total semaphoreCreators_ofCreators (List.mem_range.mp hj))

/-- Whatever the name, an open lock stays open. -/
theorem adminUp_open : Total (fun s => Locks none b s ∧ SemaphoreCreators d s) (mutexUp adminMutex u)
    (fun _ s => Locks none b s ∧ SemaphoreCreators d s) := by
  apply piece_total
  rintro s k ⟨h,hp⟩ hk
  obtain ⟨-,rfl⟩ | ⟨-,-,hr,x,hg,hm⟩ := mutexUp_cases hk
  · exact ⟨h,hp⟩
  · have hx : x.creator = (s.kernel.mutexes adminMutex).creator := by cases hg <;> rfl
    refine ⟨h.update hr hm (fun h0 h2 => hx.trans (h.guarded.creator _ h0 h2))
      (fun _ => h.admin.givenUp hg) (fun he => absurd he (by decide)),fun i => ?_⟩
    show (k.semaphores i).creator = d i
    rw [hr.semaphores]
    exact hp i

/-- A holder whose thread has the number of its process opens `adminMutex` at its own slot. -/
theorem sweepMutex_opens (hv : 0 < v.pid) (hc : v.Covers t) (ht : t = ⟨v.pid,v.pid⟩) :
    Total (fun s => Locks (some t) none s ∧ SemaphoreCreators d s) (sweepMutex v t 0)
      (fun _ s => Locks none none s ∧ SemaphoreCreators d s) := by
  have howned : Total (fun s => Locks (some t) none s ∧ SemaphoreCreators d s)
      (releaseOwnedMutex v t 0) (fun _ s => Locks (some t) none s ∧ SemaphoreCreators d s) := by
    unfold releaseOwnedMutex
    apply Spec.get_bind
    intro s₀
    apply Spec.of_pre
    rintro s ⟨h,rfl⟩
    rw [if_neg (h.1.uncovered hv le_rfl (by decide))]
    exact Spec.pure (fun _ h => h.1)
  have hup : Total (fun s => Locks (some t) none s ∧ SemaphoreCreators d s) (upHeldMutex v 0)
      (fun _ s => Locks none none s ∧ SemaphoreCreators d s) := by
    unfold upHeldMutex
    apply Spec.get_bind
    intro s₀
    apply Spec.of_pre
    rintro s ⟨h,rfl⟩
    have hl : (s.kernel.mutexes 0).lockProcess = t := h.1.admin.2.2
    have hname : (⟨v.pid,(s.kernel.mutexes 0).lockProcess.pid⟩ : ThreadId) = t := by
      rw [hl,ht]
    rw [if_pos (by rw [hl]; exact hc),hname]
    exact (adminUp_spec semaphoreCreators_ofCreators).conseq (fun _ h => h.1) (fun _ _ h => h)
      (fun _ h => h.elim)
  unfold sweepMutex
  apply howned.bind
  intro _
  apply hup.bind
  intro _
  exact Spec.forM_mem (fun j hj =>
    removeBlockedFromMutex_total semaphoreCreators_ofCreators (List.mem_range.mp hj))

/-- The cleanup comes back if there is nothing to release, or the lock is opened on the way. -/
theorem removeFromMutexes_total (hv : 0 < v.pid) (hc : v.Covers t)
    (h : t.thread = v.pid ∨ ∀ i, InMutexes i → ¬ v.Covers (c i)) :
    Total (fun s => Locks none none s ∧ MutexCreators c s ∧ SemaphoreCreators d s)
      (removeFromMutexes v t) (fun _ s => Locks none none s ∧ SemaphoreCreators d s) := by
  have hcreators : OfCreators (fun s => MutexCreators c s ∧ SemaphoreCreators d s) :=
    mutexCreators_ofCreators.and semaphoreCreators_ofCreators
  unfold removeFromMutexes
  apply ((adminDown_spec hcreators).conseq (fun _ h => h) (fun _ _ h => h) (fun _ h => h.elim)).bind
  intro _
  by_cases ht : t.thread = v.pid
  · have heq : t = ⟨v.pid,v.pid⟩ := by
      rw [← hc.1] at ht ⊢
      cases t
      simp only at ht
      rw [ht]
    have hloop : Total (fun s => Locks (some t) none s ∧ MutexCreators c s ∧ SemaphoreCreators d s)
        ((List.range maxMutexes.toNat).forM (sweepMutex v t))
        (fun _ s => Locks none none s ∧ SemaphoreCreators d s) := by
      have hrange : List.range maxMutexes.toNat = 0::(List.range 127).map Nat.succ :=
        List.range_succ_eq_map
      rw [hrange]
      apply ((sweepMutex_opens hv hc heq).conseq (fun _ h => ⟨h.1,h.2.2⟩) (fun _ _ h => h)
        (fun _ h => h)).bind
      intro _
      exact Spec.forM_mem (fun i _ => sweepMutex_open (hc.1 ▸ hv))
    exact hloop.bind (fun _ => adminUp_open)
  · have hfree := h.resolve_left ht
    have hloop : Total (fun s => Locks (some t) none s ∧ MutexCreators c s ∧ SemaphoreCreators d s)
        ((List.range maxMutexes.toNat).forM (sweepMutex v t))
        (fun _ s => Locks (some t) none s ∧ MutexCreators c s ∧ SemaphoreCreators d s) := by
      refine Spec.forM_mem (fun i hi => sweepMutex_uncovered hcreators (fun s hs => ?_) ?_ ?_)
      · rw [hs.1]
        have hlt : i < 128 := List.mem_range.mp hi
        exact hfree i ⟨Int.natCast_nonneg i,(by omega : (i : ℤ) < 128)⟩
      · rintro hx
        cases hx
        exact ht rfl
      · exact fun hx => by cases hx
    apply hloop.bind
    intro _
    exact (adminUp_spec hcreators).conseq (fun _ h => h) (fun _ _ h => ⟨h.1,h.2.2⟩)
      (fun _ h => h.elim)

/-- It waits for itself at the first mutex of the victim, unless it meets a NULL pointer before. -/
theorem removeFromMutexes_held (ht : t.thread ≠ v.pid) (h : ∃ i, InMutexes i ∧ v.Covers (c i)) :
    Spec (fun s => Locks none none s ∧ MutexCreators c s) (removeFromMutexes v t) (fun _ _ => False)
      (fun e => e = .fails ∨ e = .waits adminMutex t t) := by
  have hunlike : Unlike v (some t) := by
    rintro hx
    cases hx
    exact ht rfl
  obtain ⟨i,hi,hcover⟩ := h
  have hmem : i.toNat ∈ List.range maxMutexes.toNat := by
    have hlt : i < 128 := hi.2
    have h0 : 0 ≤ i := hi.1
    exact List.mem_range.mpr (show i.toNat < 128 by omega)
  unfold removeFromMutexes
  apply ((adminDown_spec mutexCreators_ofCreators).conseq (fun _ h => h) (fun _ _ h => h)
    (fun _ h => h.elim)).bind
  intro _
  refine (Spec.forM_stops (fun i : ℕ => v.Covers (c i)) (fun i hi => ?_)
    (fun i hi => ?_) ⟨i.toNat,hmem,?_⟩).bind (fun _ => Spec.of_false)
  · exact (sweepMutex_held (fun s hs => by rw [hs]; exact hi)).conseq (fun _ h => h)
      (fun _ _ h => h) (fun _ h => Or.inr h)
  · exact (sweepMutex_uncovered mutexCreators_ofCreators (fun s hs => by rw [hs]; exact hi) hunlike
      (fun hx => by cases hx)).conseq (fun _ h => h) (fun _ _ h => h) (fun _ h => Or.inl h)
  · rw [Int.toNat_of_nonneg hi.1]
    exact hcover

theorem removeBlockedFromSemaphore_total :
    Total (fun s => Locks a b s ∧ SemaphoreCreators d s) (removeBlockedFromSemaphore v i j)
      (fun _ s => Locks a b s ∧ SemaphoreCreators d s) := by
  apply piece_total
  rintro s k ⟨h,hd⟩ hk
  unfold Kernel.removeBlockedFromSemaphore at hk
  simp only at hk
  split at hk
  · obtain ⟨value,-,hk⟩ := Option.bind_eq_some_iff.mp hk
    obtain ⟨hm,hr⟩ := changeThreadState_table hk
    have hm' : k.mutexes = s.kernel.mutexes := hm
    refine ⟨⟨h.guarded.congr (fun _ _ _ => by rw [hm']) hr.firstAvailableMutex,h.semaphoreMutex,
      h.buddyMutex,by rw [hm']; exact h.admin,by rw [hm']; exact h.semaphore⟩,fun l => ?_⟩
    show (k.semaphores l).creator = d l
    rw [hr.semaphores]
    by_cases he : l = i
    · subst he
      rw [setSemaphore_semaphores_self]
      exact hd l
    · exact (congrArg Semaphore.creator (Function.update_of_ne he _ _)).trans (hd l)
  · cases hk
    exact ⟨h,hd⟩

theorem sweepSemaphore_uncovered {i : ℕ} (hc : ¬ v.Covers (d i)) :
    Total (fun s => Locks a b s ∧ SemaphoreCreators d s) (sweepSemaphore v t i)
      (fun _ s => Locks a b s ∧ SemaphoreCreators d s) := by
  have howned : Total (fun s => Locks a b s ∧ SemaphoreCreators d s) (releaseOwnedSemaphore v t i)
      (fun _ s => Locks a b s ∧ SemaphoreCreators d s) := by
    unfold releaseOwnedSemaphore
    apply Spec.get_bind
    intro s₀
    apply Spec.of_pre
    rintro s ⟨h,rfl⟩
    rw [if_neg (by rw [h.2]; exact hc)]
    exact Spec.pure (fun _ h => h.1)
  unfold sweepSemaphore
  apply howned.bind
  exact fun _ => Spec.forM_mem (fun _ _ => removeBlockedFromSemaphore_total)

theorem sweepSemaphore_held {i : ℕ} (hc : v.Covers (d i)) :
    Spec (fun s => Locks a (some t) s ∧ SemaphoreCreators d s) (sweepSemaphore v t i)
      (fun _ _ => False) (· = .waits 1 t t) := by
  have howned : Spec (fun s => Locks a (some t) s ∧ SemaphoreCreators d s)
      (releaseOwnedSemaphore v t i) (fun _ _ => False) (· = .waits 1 t t) := by
    unfold releaseOwnedSemaphore
    apply Spec.get_bind
    intro s₀
    apply Spec.of_pre
    rintro s ⟨h,rfl⟩
    rw [if_pos (by rw [h.2]; exact hc)]
    apply (releaseSemaphore_held.conseq (fun _ h => h.1.1) (fun _ _ h => h) (fun _ h => h)).bind
    exact fun _ => Spec.of_false
  unfold sweepSemaphore
  apply howned.bind
  exact fun _ => Spec.of_false

theorem removeFromSemaphores_total (h : ∀ i, InSemaphores i → ¬ v.Covers (d i)) :
    Total (fun s => Locks a none s ∧ SemaphoreCreators d s) (removeFromSemaphores v t)
      (fun _ s => Locks a none s ∧ SemaphoreCreators d s) := by
  unfold removeFromSemaphores
  apply Spec.get_bind
  intro s₀
  apply Spec.of_pre
  rintro s ⟨hs,rfl⟩
  rw [hs.1.semaphoreMutex]
  apply ((semaphoreDown_spec semaphoreCreators_ofCreators).conseq (fun _ h => h.1) (fun _ _ h => h)
    (fun _ h => h.elim)).bind
  intro _
  have hloop : Total (fun s => Locks a (some t) s ∧ SemaphoreCreators d s)
      ((List.range maxSemaphores.toNat).forM (sweepSemaphore v t))
      (fun _ s => Locks a (some t) s ∧ SemaphoreCreators d s) := by
    refine Spec.forM_mem (fun i hi => sweepSemaphore_uncovered ?_)
    have hlt : i < 64 := List.mem_range.mp hi
    exact h i ⟨Int.natCast_nonneg i,(by omega : (i : ℤ) < 64)⟩
  apply hloop.bind
  intro _
  exact (semaphoreUp_spec semaphoreCreators_ofCreators).conseq (fun _ h => h) (fun _ _ h => h)
    (fun _ h => h.elim)

theorem removeFromSemaphores_held (h : ∃ i, InSemaphores i ∧ v.Covers (d i)) :
    Spec (fun s => Locks a none s ∧ SemaphoreCreators d s) (removeFromSemaphores v t)
      (fun _ _ => False) (fun e => e = .fails ∨ e = .waits 1 t t) := by
  obtain ⟨i,hi,hcover⟩ := h
  have hmem : i.toNat ∈ List.range maxSemaphores.toNat := by
    have hlt : i < 64 := hi.2
    have h0 : 0 ≤ i := hi.1
    exact List.mem_range.mpr (show i.toNat < 64 by omega)
  unfold removeFromSemaphores
  apply Spec.get_bind
  intro s₀
  apply Spec.of_pre
  rintro s ⟨hs,rfl⟩
  rw [hs.1.semaphoreMutex]
  apply ((semaphoreDown_spec semaphoreCreators_ofCreators).conseq (fun _ h => h.1) (fun _ _ h => h)
    (fun _ h => h.elim)).bind
  intro _
  refine (Spec.forM_stops (fun i : ℕ => v.Covers (d i)) (fun i hi => ?_)
    (fun i hi => ?_) ⟨i.toNat,hmem,?_⟩).bind (fun _ => Spec.of_false)
  · exact (sweepSemaphore_held hi).conseq (fun _ h => h) (fun _ _ h => h) (fun _ h => Or.inr h)
  · exact (sweepSemaphore_uncovered hi).conseq (fun _ h => h) (fun _ _ h => h) (fun _ h => Or.inl h)
  · rw [Int.toNat_of_nonneg hi.1]
    exact hcover

/-! ### The heap and the processes -/

/-- What is done to the heap and to the processes leaves the locks alone. -/
theorem Locks.of_tables (h : Locks a b s) (hm : s'.kernel.mutexes = s.kernel.mutexes)
    (hf : s'.kernel.firstAvailableMutex = s.kernel.firstAvailableMutex)
    (hs : s'.semaphoreMutex = s.semaphoreMutex) (hb : s'.buddyMutex = s.buddyMutex) :
    Locks a b s' :=
  ⟨h.guarded.congr (fun _ _ _ => by rw [hm]) hf,hs.trans h.semaphoreMutex,hb.trans h.buddyMutex,
    by rw [hm]; exact h.admin,by rw [hm]; exact h.semaphore⟩

theorem heap_total {g : BuddyAllocator.Heap → Option (α × BuddyAllocator.Heap)} :
    Total (Locks a b) (partly .fails (fun s => (g s.heap).map (fun x => (x.1,{ s with heap := x.2 }))))
      (fun _ => Locks a b) := by
  refine ⟨fun s a s' h hx => ?_,fun s e _ hx => (partly_error.mp hx).2⟩
  have hmap := partly_ok.mp hx
  obtain ⟨x,-,hx⟩ := Option.map_eq_some_iff.mp hmap
  obtain ⟨-,rfl⟩ := Prod.mk.inj hx
  exact h.of_tables rfl rfl rfl rfl

theorem freeMemory_total {memoryBase : ℕ} :
    Total (Locks none b) (freeMemory memoryBase) (fun _ => Locks none b) := by
  have htrue : OfCreators (fun _ => True) := fun _ _ _ _ _ => trivial
  unfold freeMemory
  apply Spec.get_bind
  intro s₀
  split
  · exact Spec.stop (fun _ _ => rfl)
  · exact Spec.pure (fun _ h => h.1)
  · apply Spec.of_pre
    rintro s ⟨h,rfl⟩
    rw [h.buddyMutex]
    apply ((adminDown_spec htrue).conseq (fun _ h => ⟨h.1,trivial⟩) (fun _ _ h => h.1)
      (fun _ h => h.elim)).bind
    intro _
    apply (heap_total (g := BuddyAllocator.freeMemory memoryBase)).bind
    intro _
    apply ((adminUp_spec htrue).conseq (fun _ h => ⟨h,trivial⟩) (fun _ _ h => h.1)
      (fun _ h => h.elim)).bind
    exact fun _ => Spec.pure (fun _ h => h)

theorem deleteProcess_total {p : Process} :
    Total (Locks none b) (deleteProcess p) (fun _ => Locks none b) := by
  have hthread : ∀ th, Total (Locks none b) (deleteThread th) (fun _ => Locks none b) :=
    fun th => freeMemory_total.bind (fun _ => Spec.pure (fun _ h => h))
  unfold deleteProcess
  refine (Spec.forM_mem (fun i _ => ?_)).bind (fun _ =>
    freeMemory_total.bind (fun _ => Spec.pure (fun _ h => h)))
  split
  · exact Spec.pure (fun _ h => h)
  · exact hthread _

theorem removeProcess_total : Total (Locks none b) (removeProcess pid) (fun _ => Locks none b) := by
  unfold removeProcess
  apply Spec.get_bind
  intro s₀
  split
  · exact Spec.pure (fun _ h => h.1)
  · apply (deleteProcess_total.conseq (fun _ h => h.1) (fun _ _ h => h) (fun _ h => h)).bind
    exact fun _ => Spec.update (fun _ h => h.of_tables rfl rfl rfl rfl)

theorem currentThread_orphans {ppid p : ℤ} : currentThread p
    { s with kernel := s.kernel.changeChildrenToOrphan pid ppid } = currentThread p s := by
  show ((Option.map _ (s.kernel.processes p)).map Process.currentThread).getD (-1) = _
  rw [Option.map_map]
  unfold currentThread Processes.getCurrentThread
  congr 2
  funext x
  simp only [Function.comp_apply]
  split <;> rfl

theorem leaveForeground_total : Total
    (fun s => Locks a b s ∧ (MutexCreators c s ∧ SemaphoreCreators d s) ∧ s.currentThread pid = thread)
    (leaveForeground i)
    (fun _ s => Locks a b s ∧ (MutexCreators c s ∧ SemaphoreCreators d s) ∧
      s.currentThread pid = thread) := by
  unfold leaveForeground
  apply Spec.get_bind
  intro s₀
  split
  · exact Spec.stop (fun _ _ => rfl)
  · split
    · split
      · exact Spec.stop (fun _ _ => rfl)
      · rename_i t _
        have hset : Total (fun s => (Locks a b s ∧ (MutexCreators c s ∧ SemaphoreCreators d s) ∧
            s.currentThread pid = thread) ∧ s = s₀)
            (modify (fun s => { s with foreground := some t.pid }))
            (fun _ s => Locks a b s ∧ (MutexCreators c s ∧ SemaphoreCreators d s) ∧
              s.currentThread pid = thread) :=
          Spec.update (fun s h => ⟨h.1.1.of_tables rfl rfl rfl rfl,h.1.2⟩)
        apply hset.bind
        intro _
        apply piece_total
        rintro s k ⟨h,⟨hc,hd⟩,hthread⟩ hk
        obtain ⟨hm,hr⟩ := changeThreadState_table hk
        refine ⟨h.of_tables hm hr.firstAvailableMutex rfl rfl,⟨fun l => ?_,fun l => ?_⟩,?_⟩
        · show (k.mutexes l).creator = c l
          rw [hm]
          exact hc l
        · show (k.semaphores l).creator = d l
          rw [hr.semaphores]
          exact hd l
        · obtain ⟨ps,hps,rfl⟩ := Option.map_eq_some_iff.mp hk
          rw [← hthread]
          rcases Processes.changeThreadState_cases hps with rfl | rfl
          · exact Processes.getCurrentThread_set pid
          · rfl
    · exact Spec.pure (fun _ h => h.1)

/-! ### Which calls wait for themselves -/

variable {x : KernelCall α}

/-- A total call does not wait at all. -/
theorem Total.not_selfDeadlocks {Q : α → Registry → Prop} (hx : Total P x Q) (h : P s) :
    ¬ SelfDeadlocks x s := by
  rintro ⟨m,t,-,he⟩
  cases hx.error s _ h he

/-- The call cannot come back, and what is left is a lock of the tables or a NULL pointer. -/
theorem selfDeadlocks_of_held (hx : Spec P x (fun _ _ => False)
      (fun e => e = .fails ∨ ∃ m t, s.KernelLock m ∧ e = .waits m t t)) (h : P s) :
    x s = .error .fails ∨ SelfDeadlocks x s := by
  cases he : x s with
  | ok y => exact (hx.ok s y.1 y.2 h he).elim
  | error e =>
    obtain rfl | ⟨m,t,hm,rfl⟩ := hx.error s e h he
    · exact Or.inl rfl
    · exact Or.inr ⟨m,t,hm,he⟩

/-- What `removePidFromMutexes` and `removeThreadFromMutexes` must not find. -/
theorem removeFromMutexes_selfDeadlocks (h : s.Sane) (hu : s.Unlocked) (hv : 0 < v.pid)
    (hc : v.Covers t) : removeFromMutexes v t s = .error .fails ∨
      (SelfDeadlocks (removeFromMutexes v t) s ↔ t.thread ≠ v.pid ∧
        ∃ i, InMutexes i ∧ v.Covers (s.kernel.mutexes i).creator) := by
  by_cases hx : t.thread ≠ v.pid ∧ ∃ i, InMutexes i ∧ v.Covers (s.kernel.mutexes i).creator
  · have hheld : Spec _ (removeFromMutexes v t) _ _ := removeFromMutexes_held hx.1 hx.2
    obtain he | hs := selfDeadlocks_of_held (hheld.conseq (fun _ h => h) (fun _ _ h => h)
      (fun _ he => he.imp_right (fun hw => ⟨adminMutex,t,Or.inl rfl,hw⟩))) ⟨h.locks hu,fun _ => rfl⟩
    · exact Or.inl he
    · exact Or.inr ⟨fun _ => hx,fun _ => hs⟩
  · have hfree : t.thread = v.pid ∨ ∀ i, InMutexes i → ¬ v.Covers (s.kernel.mutexes i).creator := by
      by_contra hne
      push Not at hne
      exact hx hne
    have htotal : Total (fun x => Locks none none x ∧ _ ∧ SemaphoreCreators
        (fun i => (s.kernel.semaphores i).creator) x) (removeFromMutexes v t) _ :=
      removeFromMutexes_total hv hc hfree
    exact Or.inr ⟨fun hs => absurd hs (htotal.not_selfDeadlocks
      ⟨h.locks hu,fun _ => rfl,fun _ => rfl⟩),fun hy => absurd hy hx⟩

theorem removeFromSemaphores_selfDeadlocks (h : s.Sane) (hu : s.Unlocked) :
    removeFromSemaphores v t s = .error .fails ∨
      (SelfDeadlocks (removeFromSemaphores v t) s ↔
        ∃ i, InSemaphores i ∧ v.Covers (s.kernel.semaphores i).creator) := by
  by_cases hx : ∃ i, InSemaphores i ∧ v.Covers (s.kernel.semaphores i).creator
  · have hheld : Spec (fun x => Locks none none x ∧ _) (removeFromSemaphores v t) _ _ :=
      removeFromSemaphores_held hx
    obtain he | hs := selfDeadlocks_of_held (hheld.conseq (fun _ h => h) (fun _ _ h => h)
      (fun _ he => he.imp_right (fun hw => ⟨1,t,Or.inr (Or.inr (Or.inl h.semaphoreMutex.symm)),hw⟩)))
      ⟨h.locks hu,fun _ => rfl⟩
    · exact Or.inl he
    · exact Or.inr ⟨fun _ => hx,fun _ => hs⟩
  · push Not at hx
    have htotal : Total (fun x => Locks none none x ∧ _) (removeFromSemaphores v t) _ :=
      removeFromSemaphores_total hx
    refine Or.inr ⟨fun hs => absurd hs (htotal.not_selfDeadlocks ⟨h.locks hu,fun _ => rfl⟩),?_⟩
    rintro ⟨i,hi,hy⟩
    exact absurd hy (hx i hi)

def KillsOwner (pid : ℤ) (s : Registry) : Prop :=
  (s.kernel.processes pid).isSome ∧
    ((s.currentThread pid ≠ pid ∧ ∃ i, InMutexes i ∧ (s.kernel.mutexes i).creator.pid = pid) ∨
      ∃ i, InSemaphores i ∧ (s.kernel.semaphores i).creator.pid = pid)

theorem covers_pid {h : pid ≠ notUsed} :
    (⟨pid,none,h⟩ : Victim).Covers t ↔ t.pid = pid := by
  unfold Victim.Covers
  simp

/-- `killProcess` gets to its last lines with the tables as they were. -/
theorem killProcess_spec {Q : Unit → Registry → Prop} {E : Stop → Prop} (hne : pid ≠ notUsed)
    (hE : E .fails) (h : Spec (fun s => Locks a b s ∧ (MutexCreators c s ∧ SemaphoreCreators d s) ∧
      s.currentThread pid = thread) (cleanUp pid hne) Q E) :
    Spec (fun s => (Locks a b s ∧ (MutexCreators c s ∧ SemaphoreCreators d s) ∧
      s.currentThread pid = thread) ∧ (s.kernel.processes pid).isSome) (killProcess pid hne) Q E := by
  unfold killProcess
  apply Spec.get_bind
  intro s₀
  apply Spec.of_pre
  rintro s ⟨⟨-,hsome⟩,rfl⟩
  obtain ⟨p,hp⟩ := Option.isSome_iff_exists.mp hsome
  simp only [hp]
  have horphans : Spec (fun x => ((Locks a b x ∧ (MutexCreators c x ∧ SemaphoreCreators d x) ∧
      x.currentThread pid = thread) ∧ (x.kernel.processes pid).isSome) ∧ x = s)
      (modify (fun s => { s with kernel := s.kernel.changeChildrenToOrphan pid p.ppid }))
      (fun _ s => Locks a b s ∧ (MutexCreators c s ∧ SemaphoreCreators d s) ∧
        s.currentThread pid = thread) E :=
    Spec.update (fun s h => ⟨h.1.1.1.of_tables rfl rfl rfl rfl,h.1.1.2.1,
      currentThread_orphans.trans h.1.1.2.2⟩)
  apply horphans.bind
  intro _
  apply (leaveForeground_total.conseq (fun _ h => h) (fun _ _ h => h) (fun _ he => he ▸ hE)).bind
  exact fun _ => h

theorem removePidFromMutexes_total (hne : pid ≠ notUsed) (hpid : 0 < pid)
    (hm : thread = pid ∨ ∀ i, InMutexes i → (c i).pid ≠ pid) :
    Total (fun s => Locks none none s ∧ MutexCreators c s ∧ SemaphoreCreators d s)
      (removePidFromMutexes pid thread hne) (fun _ s => Locks none none s ∧ SemaphoreCreators d s) :=
  removeFromMutexes_total hpid (covers_pid.mpr rfl)
    (hm.imp id (fun hx i hi hc => hx i hi (covers_pid.mp hc)))

theorem cleanUp_total (hne : pid ≠ notUsed) (hpid : 0 < pid)
    (hm : thread = pid ∨ ∀ i, InMutexes i → (c i).pid ≠ pid)
    (hs : ∀ i, InSemaphores i → (d i).pid ≠ pid) :
    Total (fun s => Locks none none s ∧ (MutexCreators c s ∧ SemaphoreCreators d s) ∧
      s.currentThread pid = thread) (cleanUp pid hne) (fun _ => Locks none none) := by
  unfold cleanUp
  apply Spec.get_bind
  intro s₀
  apply Spec.of_pre
  rintro s ⟨⟨-,-,ht⟩,rfl⟩
  rw [ht]
  have hmutexes : Total (fun s => Locks none none s ∧ MutexCreators c s ∧ SemaphoreCreators d s)
      (removePidFromMutexes pid thread hne) _ := removePidFromMutexes_total hne hpid hm
  apply (hmutexes.conseq (fun _ h => ⟨h.1.1,h.1.2.1⟩) (fun _ _ h => h) (fun _ h => h)).bind
  intro _
  apply Spec.get_bind
  intro s₁
  have hsemaphores : Total (fun s => Locks none none s ∧ SemaphoreCreators d s)
      (removePidFromSemaphores pid (s₁.currentThread pid) hne) _ :=
    removeFromSemaphores_total (fun i hi hc => hs i hi (covers_pid.mp hc))
  apply (hsemaphores.conseq (fun _ h => h.1) (fun _ _ h => h.1) (fun _ h => h)).bind
  exact fun _ => removeProcess_total

theorem cleanUp_mutex (hne : pid ≠ notUsed) (ht : thread ≠ pid)
    (hm : ∃ i, InMutexes i ∧ (c i).pid = pid) :
    Spec (fun s => Locks none none s ∧ (MutexCreators c s ∧ SemaphoreCreators d s) ∧
      s.currentThread pid = thread) (cleanUp pid hne) (fun _ _ => False)
      (fun e => e = .fails ∨ ∃ t, e = .waits adminMutex t t) := by
  unfold cleanUp
  apply Spec.get_bind
  intro s₀
  apply Spec.of_pre
  rintro s ⟨⟨-,-,hthread⟩,rfl⟩
  rw [hthread]
  obtain ⟨i,hi,hc⟩ := hm
  have hheld : Spec _ (removePidFromMutexes pid thread hne) _ _ :=
    removeFromMutexes_held ht ⟨i,hi,covers_pid.mpr hc⟩
  apply (hheld.conseq (fun _ h => ⟨h.1.1,h.1.2.1.1⟩) (fun _ _ h => h)
    (fun _ he => he.imp_right (fun hw => ⟨_,hw⟩))).bind
  exact fun _ => Spec.of_false

theorem cleanUp_semaphore (hne : pid ≠ notUsed) (hpid : 0 < pid)
    (hm : thread = pid ∨ ∀ i, InMutexes i → (c i).pid ≠ pid)
    (hs : ∃ i, InSemaphores i ∧ (d i).pid = pid) :
    Spec (fun s => Locks none none s ∧ (MutexCreators c s ∧ SemaphoreCreators d s) ∧
      s.currentThread pid = thread) (cleanUp pid hne) (fun _ _ => False)
      (fun e => e = .fails ∨ ∃ t, e = .waits 1 t t) := by
  unfold cleanUp
  apply Spec.get_bind
  intro s₀
  apply Spec.of_pre
  rintro s ⟨⟨-,-,ht⟩,rfl⟩
  rw [ht]
  have hmutexes : Total (fun s => Locks none none s ∧ MutexCreators c s ∧ SemaphoreCreators d s)
      (removePidFromMutexes pid thread hne) _ := removePidFromMutexes_total hne hpid hm
  apply (hmutexes.conseq (fun _ h => ⟨h.1.1,h.1.2.1⟩) (fun _ _ h => h) (fun _ h => Or.inl h)).bind
  intro _
  apply Spec.get_bind
  intro s₁
  obtain ⟨i,hi,hc⟩ := hs
  have hheld : Spec (fun s => Locks none none s ∧ SemaphoreCreators d s)
      (removePidFromSemaphores pid (s₁.currentThread pid) hne) _ _ :=
    removeFromSemaphores_held ⟨i,hi,covers_pid.mpr hc⟩
  apply (hheld.conseq (fun _ h => h.1) (fun _ _ h => h)
    (fun _ he => he.imp_right (fun hw => ⟨_,hw⟩))).bind
  exact fun _ => Spec.of_false

theorem killProcess_selfDeadlocks (h : s.Sane) (hu : s.Unlocked) (hpid : 0 < pid)
    (hne : pid ≠ notUsed) : killProcess pid hne s = .error .fails ∨
      (SelfDeadlocks (killProcess pid hne) s ↔ KillsOwner pid s) := by
  by_cases hsome : (s.kernel.processes pid).isSome
  · have hstart : (Locks none none s ∧ (MutexCreators (fun i => (s.kernel.mutexes i).creator) s ∧
        SemaphoreCreators (fun i => (s.kernel.semaphores i).creator) s) ∧
        s.currentThread pid = s.currentThread pid) ∧ (s.kernel.processes pid).isSome :=
      ⟨⟨h.locks hu,⟨fun _ => rfl,fun _ => rfl⟩,rfl⟩,hsome⟩
    by_cases hm : s.currentThread pid ≠ pid ∧ ∃ i, InMutexes i ∧ (s.kernel.mutexes i).creator.pid = pid
    · have hheld := killProcess_spec
        (d := fun i => (s.kernel.semaphores i).creator) hne (Or.inl rfl) (cleanUp_mutex hne hm.1 hm.2)
      obtain he | hs := selfDeadlocks_of_held (hheld.conseq (fun _ h => h) (fun _ _ h => h)
        (fun _ he => he.imp_right (fun ⟨t,hw⟩ => ⟨adminMutex,t,Or.inl rfl,hw⟩))) hstart
      · exact Or.inl he
      · exact Or.inr ⟨fun _ => ⟨hsome,Or.inl hm⟩,fun _ => hs⟩
    · have hfree : s.currentThread pid = pid ∨
          ∀ i, InMutexes i → (s.kernel.mutexes i).creator.pid ≠ pid := by
        by_contra hx
        push Not at hx
        exact hm hx
      by_cases hx : ∃ i, InSemaphores i ∧ (s.kernel.semaphores i).creator.pid = pid
      · have hheld := killProcess_spec hne (Or.inl rfl) (cleanUp_semaphore hne hpid hfree hx)
        obtain he | hs := selfDeadlocks_of_held (hheld.conseq (fun _ h => h) (fun _ _ h => h)
          (fun _ he => he.imp_right
            (fun ⟨t,hw⟩ => ⟨1,t,Or.inr (Or.inr (Or.inl h.semaphoreMutex.symm)),hw⟩))) hstart
        · exact Or.inl he
        · exact Or.inr ⟨fun _ => ⟨hsome,Or.inr hx⟩,fun _ => hs⟩
      · have htotal : Total _ (killProcess pid hne) _ := killProcess_spec hne rfl
          (cleanUp_total hne hpid hfree (fun i hi hc => hx ⟨i,hi,hc⟩))
        refine Or.inr ⟨fun hs => absurd hs (htotal.not_selfDeadlocks hstart),fun hk => ?_⟩
        exact absurd hk.2 (fun hk => hk.elim hm hx)
  · refine Or.inr ⟨?_,fun hx => absurd hx.1 hsome⟩
    rintro ⟨m,t,-,he⟩
    unfold killProcess at he
    rw [get_bind,Option.not_isSome_iff_eq_none.mp hsome] at he
    cases he

theorem unlinkChannel_isSome {channel : ChannelNode} {channels : List ChannelNode}
    (h : channel ∈ channels) : (unlinkChannel channel channels).isSome := by
  have hbelongs : channel.channelBelongsToPids channel.senderPid channel.recipientPid :=
    Or.inl ⟨rfl,rfl⟩
  unfold unlinkChannel
  rw [List.span_eq_takeWhile_dropWhile]
  cases hd : channels.dropWhile (fun node =>
      ¬ node.channelBelongsToPids channel.senderPid channel.recipientPid) with
  | nil =>
    have hall := List.dropWhile_eq_nil_iff.mp hd channel h
    simp [hbelongs] at hall
  | cons x xs =>
    cases channels.takeWhile (fun node =>
        ¬ node.channelBelongsToPids channel.senderPid channel.recipientPid) with
    | nil => rfl
    | cons y ys => rfl

/-- The recursion asks for `channelMutex` again. -/
theorem removeChannelFromList_waits {channel : ChannelNode} {n : ℕ} (hg : s.kernel.Guarded)
    (hc : s.channelMutex = 2) (hopen : (s.kernel.mutexes 2).value ≠ locked)
    (hmem : channel ∈ s.channels) : removeChannelFromList (n+2) channel s =
      .error (.waits 2 s.kernel.caller s.kernel.caller) := by
  obtain ⟨⟨current,rest⟩,hx⟩ := Option.isSome_iff_exists.mp (unlinkChannel_isSome hmem)
  have hdown : mutexDown s.channelMutex s.kernel.caller s =
      .ok ((),{ s with kernel := s.kernel.take s.channelMutex s.kernel.caller }) := by
    apply mutexDown_free
    · rw [hc]
      exact hg.valid (by decide) le_rfl
    · rw [hc]
      exact hopen
  have hself : (s.kernel.take s.channelMutex s.kernel.caller).mutexes 2 = { s.kernel.mutexes 2 with
      value := locked
      lockProcess := s.kernel.caller } := by
    rw [hc]
    exact take_self
  have hagain : removeChannelFromList (n+1) current { s with
      kernel := s.kernel.take s.channelMutex s.kernel.caller
      channels := rest } = .error (.waits 2 s.kernel.caller s.kernel.caller) := by
    unfold removeChannelFromList
    rw [get_bind]
    apply bind_of_error
    show mutexDown s.channelMutex s.kernel.caller _ = _
    rw [congrArg (fun m => mutexDown m s.kernel.caller) hc]
    refine (mutexDown_waits (hg.take.valid (by decide) le_rfl) (by rw [hself])).trans ?_
    rw [hself]
  unfold removeChannelFromList
  rw [get_bind,bind_of_ok hdown,get_bind]
  simp only [hx,modify_bind]
  exact bind_of_error hagain

theorem sysDeleteChannel_selfDeadlocks {recipientPid : ℤ} (h : s.Sane) (hu : s.Unlocked) :
    SelfDeadlocks (sysDeleteChannel recipientPid) s ↔
      s.getChannelFromList recipientPid s.kernel.getpid ≠ none := by
  unfold SelfDeadlocks sysDeleteChannel
  rw [get_bind]
  cases hc : s.getChannelFromList recipientPid s.kernel.getpid with
  | none =>
    refine ⟨?_,fun hx => absurd rfl hx⟩
    rintro ⟨m,t,-,he⟩
    cases he
  | some channel =>
    refine ⟨fun _ => by simp,fun _ => ?_⟩
    have hmem : channel ∈ s.channels := List.mem_of_find?_eq_some hc
    obtain ⟨n,hn⟩ := Nat.exists_eq_succ_of_ne_zero (List.length_pos_of_mem hmem).ne'
    have hopen : (s.kernel.mutexes 2).value ≠ locked := by
      rw [h.unlocked_iff.mp hu 2 (by decide) le_rfl]
      decide
    refine ⟨2,s.kernel.caller,Or.inr (Or.inr (Or.inr h.channelMutex.symm)),?_⟩
    simp only [hn]
    exact removeChannelFromList_waits h.guarded h.channelMutex hopen hmem

theorem deletePipe_total {pipe : ℤ} (hpid : 0 < pid) :
    Total (Locks none none) (deletePipe pipe pid thread) (fun _ => Locks none none) := by
  unfold deletePipe
  apply Spec.get_bind
  intro s₀
  simp only
  split
  · rename_i hc
    have hcreator : 0 < (s₀.pipes pipe.toNat).creator.pid := by
      rw [hc.2]
      exact hpid
    apply (freeMemory_total.conseq (fun _ h => h.1) (fun _ _ h => h) (fun _ h => h)).bind
    intro _
    apply (releaseMutex_locks hcreator).bind
    intro _
    apply (releaseSemaphore_total hcreator).bind
    intro _
    apply (releaseSemaphore_total hcreator).bind
    intro _
    have hpipe : Total (Locks none none) (modify (fun s => { s with
        pipes := Function.update s.pipes pipe.toNat { s₀.pipes pipe.toNat with used := false } }))
        (fun _ => Locks none none) := Spec.update (fun _ h => h.of_tables rfl rfl rfl rfl)
    exact hpipe.bind (fun _ => Spec.pure (fun _ h => h))
  · exact Spec.pure (fun _ h => h.1)

theorem sysClosePipe_total {pipe : ℤ} (hpid : 0 < s.kernel.getpid) :
    Total (fun x => Locks none none x ∧ x = s) (sysClosePipe pipe) (fun _ => Locks none none) := by
  unfold sysClosePipe
  apply Spec.get_bind
  intro s₀
  apply Spec.of_pre
  rintro x ⟨⟨-,rfl⟩,rfl⟩
  exact (deletePipe_total hpid).conseq (fun _ h => h.1.1) (fun _ _ h => h) (fun _ h => h)

theorem covers_thread {h : pid ≠ notUsed} :
    (⟨pid,some thread,h⟩ : Victim).Covers t ↔ t = ⟨pid,thread⟩ := by
  unfold Victim.Covers
  cases t
  simp

/-- Releases and pipes never wait for themselves. A cleanup does if it has something to release,
`adminMutex` apart where the number of the thread is that of its process, and a channel always
does. -/
theorem self_deadlocks (h : s.Reachable) (hu : s.Unlocked) :
    (∀ pid mutex thread, 0 < pid → ¬ SelfDeadlocks (releaseMutex pid mutex thread) s) ∧
    (∀ pid semaphore thread, 0 < pid → ¬ SelfDeadlocks (releaseSemaphore pid semaphore thread) s) ∧
    (∀ pid thread hne, 0 < pid → removePidFromMutexes pid thread hne s = .error .fails ∨
      (SelfDeadlocks (removePidFromMutexes pid thread hne) s ↔
        thread ≠ pid ∧ ∃ i, InMutexes i ∧ (s.kernel.mutexes i).creator.pid = pid)) ∧
    (∀ pid thread hne, 0 < pid → removeThreadFromMutexes pid thread hne s = .error .fails ∨
      (SelfDeadlocks (removeThreadFromMutexes pid thread hne) s ↔
        thread ≠ pid ∧ ∃ i, InMutexes i ∧ (s.kernel.mutexes i).creator = ⟨pid,thread⟩)) ∧
    (∀ pid thread hne, removePidFromSemaphores pid thread hne s = .error .fails ∨
      (SelfDeadlocks (removePidFromSemaphores pid thread hne) s ↔
        ∃ i, InSemaphores i ∧ (s.kernel.semaphores i).creator.pid = pid)) ∧
    (∀ pid thread hne, removeThreadFromSemaphores pid thread hne s = .error .fails ∨
      (SelfDeadlocks (removeThreadFromSemaphores pid thread hne) s ↔
        ∃ i, InSemaphores i ∧ (s.kernel.semaphores i).creator = ⟨pid,thread⟩)) ∧
    (∀ pid hne, 0 < pid → killProcess pid hne s = .error .fails ∨
      (SelfDeadlocks (killProcess pid hne) s ↔ KillsOwner pid s)) ∧
    (∀ recipientPid, SelfDeadlocks (sysDeleteChannel recipientPid) s ↔
      s.getChannelFromList recipientPid s.kernel.getpid ≠ none) ∧
    (∀ pipe, 0 < s.kernel.getpid → ¬ SelfDeadlocks (sysClosePipe pipe) s) := by
  have hs := h.sane
  have hl := hs.locks hu
  refine ⟨fun pid mutex thread hpid => (releaseMutex_locks hpid).not_selfDeadlocks hl,
    fun pid semaphore thread hpid => (releaseSemaphore_total hpid).not_selfDeadlocks hl,
    fun pid thread hne hpid => ?_,fun pid thread hne hpid => ?_,fun pid thread hne => ?_,
    fun pid thread hne => ?_,fun pid hne hpid => killProcess_selfDeadlocks hs hu hpid hne,
    fun _ => sysDeleteChannel_selfDeadlocks hs hu,
    fun pipe hpid => (sysClosePipe_total hpid).not_selfDeadlocks ⟨hl,rfl⟩⟩
  · have hx := removeFromMutexes_selfDeadlocks (v := ⟨pid,none,hne⟩) hs hu hpid
      (t := ⟨pid,thread⟩) (covers_pid.mpr rfl)
    simp only [covers_pid] at hx
    exact hx
  · have hx := removeFromMutexes_selfDeadlocks (v := ⟨pid,some thread,hne⟩) hs hu hpid
      (t := ⟨pid,thread⟩) (covers_thread.mpr rfl)
    simp only [covers_thread] at hx
    exact hx
  · have hx := removeFromSemaphores_selfDeadlocks (v := ⟨pid,none,hne⟩) (t := ⟨pid,thread⟩) hs hu
    simp only [covers_pid] at hx
    exact hx
  · have hx := removeFromSemaphores_selfDeadlocks (v := ⟨pid,some thread,hne⟩) (t := ⟨pid,thread⟩)
      hs hu
    simp only [covers_thread] at hx
    exact hx

/-- After the boot a release comes back. -/
theorem self_deadlocks_boot : ∃ s, main static = .ok ((),s) ∧
    ¬ SelfDeadlocks (releaseMutex 1 3 0) s := by
  obtain ⟨s,hm,hb⟩ := main_booted
  exact ⟨s,hm,(self_deadlocks (Reachable.boot hm) hb.unlocked).1 1 3 0 (by decide)⟩

/-- A round over a slot that is none of the victim's business. -/
theorem sweepMutex_idle {i : ℕ} (hc : ¬ v.Covers (s.kernel.mutexes i).creator)
    (hl : v.Covers (s.kernel.mutexes i).lockProcess →
      (s.kernel.mutexes i).lockProcess ≠ ⟨v.pid,(s.kernel.mutexes i).lockProcess.pid⟩)
    (hw : ∀ j < maxBlocked, ¬ v.Covers ((s.kernel.mutexes i).list.blocked j)) :
    sweepMutex v t i s = .ok ((),s) := by
  have howned : releaseOwnedMutex v t i s = .ok ((),s) := by
    unfold releaseOwnedMutex
    rw [get_bind,if_neg hc]
    rfl
  have hup : upHeldMutex v i s = .ok ((),s) := by
    unfold upHeldMutex
    rw [get_bind]
    split
    · rename_i hcover
      exact mutexUp_ok.mpr ⟨_,mutexUp_ignored (fun hx => hl hcover hx.2),rfl⟩
    · rfl
  have hblocked : ∀ js : List ℕ, (∀ j ∈ js, j < maxBlocked) →
      js.forM (removeBlockedFromMutex v i) s = .ok ((),s) := by
    intro js hjs
    induction js with
    | nil => rfl
    | cons j js ih =>
      have hj : removeBlockedFromMutex v i j s = .ok ((),s) :=
        piece_ok.mpr ⟨s.kernel,if_neg (hw j (hjs j List.mem_cons_self)),rfl⟩
      exact (bind_of_ok hj).trans (ih (fun l hx => hjs l (List.mem_cons_of_mem _ hx)))
  unfold sweepMutex
  rw [bind_of_ok howned,bind_of_ok hup]
  exact hblocked _ (fun j hj => List.mem_range.mp hj)

/-- The boot, and the first mutex of a process. -/
theorem Booted.claimed (h : s.Booted) : ∃ k, s.move (.table (.createMutex 1 [109] 0)) =
      some { s with kernel := k } ∧ (k.mutexes 3).creator = ⟨1,0⟩ ∧
      ∀ i, 0 ≤ i → i ≤ 2 → k.mutexes i = bootMutex i := by
  have hnext := createMutex_next (k := s.kernel) (i := 3) (j := 4) (p := 1) (t := 0) (n := [109])
    (by rw [h.usedMutexes]; decide) (by decide) h.firstMutex (by decide) (by decide)
    (by rw [h.mutexes _ (by decide)]; rfl) (fun l hl hne => by
      rw [h.mutexes l ⟨by omega,lt_trans (by omega) (by decide : 4 < maxMutexes)⟩]
      obtain rfl | rfl | rfl : l = 0 ∨ l = 1 ∨ l = 2 := by omega
      all_goals decide) (by decide)
  refine ⟨(s.kernel.createMutex 1 [109] 0).2,rfl,?_,fun i h0 h2 => ?_⟩
  · rw [hnext]
    simp only [Nat.cast_ofNat,Function.update_self,named]
  · rw [hnext]
    exact (Function.update_of_ne (by omega) _ _).trans (h.mutexes i ⟨h0,h2.trans_lt (by decide)⟩)

/-- The process `1` creates a mutex, and then its cleanup waits for itself. -/
theorem self_deadlocks_fails : ∃ s : Registry, s.Reachable ∧ s.Unlocked ∧
    SelfDeadlocks (removePidFromMutexes 1 0 (by decide)) s := by
  obtain ⟨s₀,hm,hb⟩ := main_booted
  obtain ⟨k,hmove,hcreator,hlow⟩ := hb.claimed
  have hreach : Reachable { s₀ with kernel := k } :=
    ⟨s₀,[.table (.createMutex 1 [109] 0)],hm,(Option.bind_eq_some_iff.mpr ⟨_,hmove,rfl⟩)⟩
  have hs := hreach.sane
  have hu : Unlocked { s₀ with kernel := k } := hs.unlocked_iff.mpr (fun m h0 h2 => by
    rw [hlow m h0 h2]
    exact bootMutex_value)
  refine ⟨_,hreach,hu,adminMutex,⟨1,0⟩,Or.inl rfl,?_⟩
  have hdown := mutexDown_guarded (t := ⟨1,0⟩) hs.guarded (by decide) (by decide)
    (show (k.mutexes adminMutex).value ≠ locked by rw [hlow _ (by decide) (by decide)]; decide)
  generalize hk' : k.lockSlot adminMutex locked ⟨1,0⟩ = k' at hdown
  have hheld : k'.mutexes adminMutex = { bootMutex adminMutex with
      value := locked, lockProcess := ⟨1,0⟩ } := by
    rw [← hk',lockSlot_self,hlow _ (by decide) (by decide)]
  have hrest : ∀ i, i ≠ adminMutex → k'.mutexes i = k.mutexes i := by
    intro i hi
    rw [← hk',lockSlot_of_ne hi]
  -- the slots of the kernel are none of the process' business
  have hslots : ∀ i : ℕ, i ≤ 2 → (k'.mutexes i).creator.pid = 0 ∧
      ((k'.mutexes i).lockProcess = ⟨1,0⟩ ∨ (k'.mutexes i).lockProcess.pid = notUsed) ∧
      (k'.mutexes i).list = clearedMutex.list := by
    intro i hi
    obtain rfl | rfl | rfl : i = 0 ∨ i = 1 ∨ i = 2 := by omega
    · have hself : k'.mutexes (0 : ℕ) = _ := hheld
      rw [hself]
      exact ⟨rfl,Or.inl rfl,rfl⟩
    · rw [hrest _ (by decide),hlow _ (by decide) (by decide)]
      exact ⟨rfl,Or.inr rfl,rfl⟩
    · rw [hrest _ (by decide),hlow _ (by decide) (by decide)]
      exact ⟨rfl,Or.inr rfl,rfl⟩
  have hidle : ∀ i : ℕ, i ≤ 2 → sweepMutex ⟨1,none,by decide⟩ ⟨1,0⟩ i { s₀ with kernel := k' } =
      .ok ((),{ s₀ with kernel := k' }) := by
    intro i hi
    obtain ⟨hc,hl,hw⟩ := hslots i hi
    apply sweepMutex_idle
    · rw [covers_pid,hc]
      decide
    · intro hcover
      rw [covers_pid] at hcover
      obtain hl | hl := hl
      · rw [hl]
        decide
      · rw [hl] at hcover
        exact absurd hcover (by decide)
    · intro j hj
      have hfree : (clearedMutex.list.blocked j).pid = notUsed := congrArg ThreadId.pid (if_pos hj)
      rw [covers_pid,hw,hfree]
      decide
  have howned : releaseOwnedMutex ⟨1,none,by decide⟩ ⟨1,0⟩ (3 : ℕ) { s₀ with kernel := k' } =
      .error (.waits adminMutex ⟨1,0⟩ ⟨1,0⟩) := by
    have hvalid : k'.isValidMutex adminMutex := by
      refine ⟨by decide,by decide,?_⟩
      rw [hheld]
      decide
    have hc : (k'.mutexes (3 : ℕ)).creator = ⟨1,0⟩ := (congrArg _ (hrest _ (by decide))).trans hcreator
    have hwaits := mutexDown_waits (s := { s₀ with kernel := k' }) (t := ⟨1,0⟩) hvalid
      (congrArg Mutex.value hheld)
    rw [hheld] at hwaits
    unfold releaseOwnedMutex
    rw [get_bind,if_pos (covers_pid.mpr (congrArg ThreadId.pid hc))]
    exact bind_of_error (bind_of_error hwaits)
  obtain ⟨is,hrange⟩ : ∃ is, List.range maxMutexes.toNat = 0::1::2::3::is := ⟨_,rfl⟩
  unfold removePidFromMutexes removeFromMutexes
  rw [bind_of_ok hdown,hrange]
  apply bind_of_error
  refine (bind_of_ok (hidle 0 (by decide))).trans ((bind_of_ok (hidle 1 (by decide))).trans
    ((bind_of_ok (hidle 2 le_rfl)).trans ?_))
  exact bind_of_error (bind_of_error howned)

end Registry
end ComplexOS
