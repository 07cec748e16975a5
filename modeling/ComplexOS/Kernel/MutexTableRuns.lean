import ComplexOS.Kernel.MutexTable
import ComplexOS.Library.Runs

/-! # Runs over the table of mutexes

The pieces of kernel code that touch the table, by any threads in any order. The ghost
is the set of slots that a creation has answered and no release has given back.
-/
namespace ComplexOS
open Kernel BlockedList

structure MutexTable where
  kernel : Kernel
  live : Finset ℤ

inductive TableStep
  | createMutex (pid : ℤ) (name : List UInt8) (thread : ℤ)
  | mutexDown (mutex : ℤ) (t : ThreadId)
  | mutexUp (mutex : ℤ) (t : ThreadId)
  | releaseMutex (mutex : ℤ) (t : ThreadId)
  /-- A round of the loop at the end of `releaseSemaphore`. -/
  | unlockProcess (mutex : ℤ)
  | removeBlocked (v : Victim) (mutex : ℤ) (j : ℕ)
  /-- What the rest of the kernel does. -/
  | other (k : Kernel)

/-- Entries are counted, nobody waits for an open lock, and there are two values. -/
structure Mutex.Ok (m : Mutex) : Prop where
  counted : m.list.Counted
  idle : m.value ≠ locked → m.list.blockedQuantity = 0
  value : m.value = locked ∨ m.value = unlocked

namespace Mutex
variable {m m' : Mutex} {t : ThreadId} {o : DownOutcome} {v : Victim} {j : ℕ}

theorem Ok.taken (h : m.Ok) (hu : t.used ∨ m.value ≠ locked) (ht : Taken m t o m') : m'.Ok := by
  cases ht with
  | free hv => exact ⟨h.counted,fun hx => absurd rfl hx,Or.inl rfl⟩
  | queued hv ha =>
    have hused : t.used := hu.resolve_right (fun hx => hx hv)
    exact ⟨h.counted.add hused ha,fun hx => absurd rfl hx,Or.inl rfl⟩
  | full hv ha => exact ⟨h.counted,fun hx => absurd rfl hx,Or.inl rfl⟩

theorem Ok.pop_locked {w : ThreadId} {l : BlockedList} (h : m.Ok) (hp : m.list.pop = some (w,l)) :
    m.value = locked := by
  by_contra hv
  rw [h.counted.pop_none.mpr (h.idle hv)] at hp
  cases hp

theorem Ok.popped {w u : ThreadId} {l : BlockedList} (h : m.Ok) (hp : m.list.pop = some (w,l)) :
    Mutex.Ok { m with lockProcess := u, list := l } :=
  ⟨h.counted.pop hp,fun hx => absurd (h.pop_locked hp) hx,h.value⟩

theorem Ok.givenUp (h : m.Ok) (hg : GivenUp m m') : m'.Ok := by
  cases hg with
  | free hp => exact ⟨h.counted,fun _ => h.counted.pop_none.mp hp,Or.inr rfl⟩
  | handed hp => exact h.popped hp

/-- Only the entry of a waiter is covered by a victim, and there are none at an open lock. -/
theorem Ok.covers (h : m.Ok) (hj : j < maxBlocked) (hc : v.Covers (m.list.blocked j)) :
    m.value = locked ∧ (m.list.blocked j).used := by
  have hu : (m.list.blocked j).used := fun he => v.used (hc.1.symm.trans he)
  refine ⟨?_,hu⟩
  by_contra hv
  exact Finset.notMem_empty _ ((h.counted.holds_empty (h.idle hv)).entry j hj hu)

theorem Ok.remove (h : m.Ok) (hj : j < maxBlocked) (hc : v.Covers (m.list.blocked j)) :
    Mutex.Ok { m with list := m.list.remove j } := by
  obtain ⟨hv,hu⟩ := h.covers hj hc
  exact ⟨h.counted.erase hj hu not_used_unused,fun hx => absurd hv hx,h.value⟩

theorem Ok.congr (h : m.Ok) (hl : m'.list = m.list) (hv : m'.value = m.value) : m'.Ok :=
  ⟨by rw [hl]; exact h.counted,by rw [hl,hv]; exact h.idle,by rw [hv]; exact h.value⟩

theorem Ok.open_value (h : m.Ok) (hv : m.value ≠ locked) : m.value = unlocked :=
  h.value.resolve_left hv

theorem Ok.holds_empty (h : m.Ok) (hv : m.value = unlocked) : m.list.Holds ∅ :=
  h.counted.holds_empty (h.idle (by rw [hv]; decide))

theorem clear_ok (m : Mutex) : m.clear.Ok := ⟨m.clear_list.counted,fun _ => rfl,Or.inr rfl⟩

end Mutex

def InMutexes (i : ℤ) : Prop := 0 ≤ i ∧ i < maxMutexes

instance (i : ℤ) : Decidable (InMutexes i) := inferInstanceAs (Decidable (_ ∧ _))

namespace MutexTable
variable (s : MutexTable)

def step : TableStep → Option MutexTable
  | .createMutex pid name thread =>
    if pid ≠ notUsed ∧ 0 ∉ name then
      let x := s.kernel.createMutex pid name thread
      some ⟨x.2,x.1.elim s.live (fun m => insert m s.live)⟩
    else none
  | .mutexDown mutex t =>
    if t.used ∨ (s.kernel.mutexes mutex).value ≠ locked then
      (s.kernel.mutexDown mutex t).map (fun x => { s with kernel := x.2 })
    else none
  | .mutexUp mutex t => (s.kernel.mutexUp mutex t).map (fun k => { s with kernel := k })
  | .releaseMutex mutex t => (s.kernel.releaseMutexBody mutex t).map (fun x =>
      ⟨x.2,if x.1 then s.live.erase mutex else s.live⟩)
  | .unlockProcess mutex =>
    if InMutexes mutex then
      (s.kernel.unlockProcess mutex).map (fun x => { s with kernel := x.2 })
    else none
  | .removeBlocked v mutex j =>
    if InMutexes mutex ∧ j < maxBlocked then
      (s.kernel.removeBlockedFromMutex v mutex j).map (fun k => { s with kernel := k })
    else none
  | .other k => some { s with kernel := { k with
      mutexes := s.kernel.mutexes
      firstAvailableMutex := s.kernel.firstAvailableMutex
      usedMutexes := s.kernel.usedMutexes } }

def Sound : Prop := ∀ i, InMutexes i → (s.kernel.mutexes i).Ok

variable {s} {s' : MutexTable} {l : TableStep} {k k' : Kernel} {i mutex : ℤ} {m : Mutex}

theorem Sound.update (h : s.Sound) (hm : s'.kernel.mutexes = Function.update s.kernel.mutexes mutex m)
    (hok : InMutexes mutex → m.Ok) : s'.Sound := by
  intro i hi
  rw [hm]
  by_cases he : i = mutex
  · subst he
    rw [Function.update_self]
    exact hok hi
  · rw [Function.update_of_ne he]
    exact h i hi

theorem Sound.marked (h : s.Sound) (hm : s'.kernel.mutexes = Kernel.marked s.kernel mutex m)
    (hok : m.Ok) : s'.Sound := by
  intro i hi
  rw [hm]
  by_cases he : i = mutex
  · subst he
    rw [marked_self]
    exact hok
  · obtain ⟨hl,hv,-⟩ := marked_of_ne he
    exact (h i hi).congr hl hv

theorem step_createMutex {pid thread : ℤ} {name : List UInt8} {r : Option ℤ}
    (hp : pid ≠ notUsed) (hn : 0 ∉ name) (hk : s.kernel.createMutex pid name thread = (r,k)) :
    s.step (.createMutex pid name thread) =
      some ⟨k,r.elim s.live (fun m => insert m s.live)⟩ := by
  simp only [step,if_pos (And.intro hp hn),hk]

theorem step_sound (h : s.Sound) (hs : s.step l = some s') : s'.Sound := by
  cases l with
  | createMutex pid name thread =>
    unfold step at hs
    obtain ⟨-,hs⟩ := Option.ite_none_right_eq_some.mp hs
    cases hs
    rcases createMutex_cases (k := s.kernel) Prod.mk.eta.symm with ⟨-,-,hk⟩ | ⟨-,-,-,hm,-⟩
    · intro i hi
      show ((s.kernel.createMutex pid name thread).2.mutexes i).Ok
      rw [hk]
      exact h i hi
    · exact h.update hm (fun hi => (h _ hi).congr rfl rfl)
  | mutexDown mutex t =>
    obtain ⟨hu,hs⟩ := Option.ite_none_right_eq_some.mp hs
    obtain ⟨⟨o,k⟩,hk,rfl⟩ := Option.map_eq_some_iff.mp hs
    rcases mutexDown_cases hk with ⟨-,-,rfl⟩ | ⟨hv,-,m,ht,hm⟩
    · exact h
    · exact h.marked hm ((h mutex ⟨hv.1,hv.2.1⟩).taken hu ht)
  | mutexUp mutex t =>
    obtain ⟨k,hk,rfl⟩ := Option.map_eq_some_iff.mp hs
    rcases mutexUp_cases hk with ⟨-,rfl⟩ | ⟨hv,-,-,m,hg,hm⟩
    · exact h
    · exact h.update hm (fun hi => (h _ hi).givenUp hg)
  | releaseMutex mutex t =>
    obtain ⟨⟨b,k⟩,hk,rfl⟩ := Option.map_eq_some_iff.mp hs
    rcases releaseMutexBody_cases hk with ⟨-,-,rfl⟩ | ⟨-,hv,-,-,m,hm,-,-,hval,hz,hcount,-⟩
    · exact h
    · refine h.update hm (fun hi => ?_)
      have hc := hcount (h _ hi).counted
      have hnn := hc.nonneg
      exact ⟨hc,fun _ => by omega,by rw [hval]; exact (h _ hi).value⟩
  | unlockProcess mutex =>
    obtain ⟨hi,hs⟩ := Option.ite_none_right_eq_some.mp hs
    obtain ⟨⟨b,k⟩,hk,rfl⟩ := Option.map_eq_some_iff.mp hs
    rcases unlockProcess_cases hk with ⟨-,-,rfl⟩ | ⟨-,-,w,l,hp,hm⟩
    · exact h
    · exact h.update hm (fun hi => (h _ hi).popped hp)
  | removeBlocked v mutex j =>
    obtain ⟨⟨hi,hj⟩,hs⟩ := Option.ite_none_right_eq_some.mp hs
    obtain ⟨k,hk,rfl⟩ := Option.map_eq_some_iff.mp hs
    rcases removeBlockedFromMutex_cases hk with ⟨-,rfl⟩ | ⟨hc,-,hm⟩
    · exact h
    · exact h.update hm (fun hi => (h _ hi).remove hj hc)
  | other k =>
    cases hs
    exact h

end MutexTable
end ComplexOS
