import ComplexOS.Kernel.KillRounds

/-! # The sweep over the semaphores

The slots of the semaphores are swept under `semaphoreMutex`, and a release among them takes
`adminMutex` once more.
-/
namespace ComplexOS
open Kernel Call

structure Semaphore.Cleaned (t : ThreadId) (x x' : Semaphore) : Prop where
  creator : x'.creator = if x.creator = t then { x.creator with pid := notUsed } else x.creator
  waiters : x'.list.waiters = x.list.waiters.filter (fun w => w.pid ≠ t.pid)

namespace Registry
variable {s s' s₁ s₂ : Registry} {m i pid thread : ℤ} {t : ThreadId} {v : Victim} {u : Unit}
  {b : Bool} {j n : ℕ} {k : Kernel} {hne : t.pid ≠ notUsed} {P Q : Mutex → Prop}

theorem unlockAllSemaphore_same {k' : Kernel} (h : unlockAllSemaphore i n k = some k') : k' = k := by
  by_cases hq : (k.semaphores i).list.blockedQuantity > 0
  · rw [unlockAllSemaphore_endless hq] at h
    cases h
  · unfold unlockAllSemaphore at h
    rw [if_neg hq] at h
    exact (Option.some.inj h).symm

/-- What a piece of the second sweep changes: one semaphore and the locks of the tables. -/
structure SemaphoreWrites (i : ℤ) (s s' : Registry) : Prop extends Passes s s' where
  mutexes : ∀ j, j ≠ adminMutex → j ≠ 1 → s'.kernel.mutexes j = s.kernel.mutexes j
  semaphores : ∀ j, j ≠ i → s'.kernel.semaphores j = s.kernel.semaphores j

theorem SemaphoreWrites.refl : SemaphoreWrites i s s := ⟨Passes.refl,fun _ _ _ => rfl,fun _ _ => rfl⟩

theorem SemaphoreWrites.trans (h : SemaphoreWrites i s s₁) (h' : SemaphoreWrites i s₁ s') :
    SemaphoreWrites i s s' :=
  ⟨h.toPasses.trans h'.toPasses,fun j hj h1 => (h'.mutexes j hj h1).trans (h.mutexes j hj h1),
    fun j hj => (h'.semaphores j hj).trans (h.semaphores j hj)⟩

theorem Writes.semaphoreWrites (h : Writes m s s') (hm : m = adminMutex ∨ m = 1) :
    SemaphoreWrites i s s' := by
  refine ⟨h.toPasses,fun j hj h1 => h.mutexes j ?_,fun j _ => congrFun h.semaphores j⟩
  rintro rfl
  exact hm.elim hj h1

def Disowned (t : ThreadId) (s : Registry) : Prop :=
  ∀ j, InMutexes j → (s.kernel.mutexes j).creator ≠ t

theorem Disowned.semaphoreWrites (h : Disowned t s) (hs : Ordered s) (ht : 0 < t.pid)
    (hw : SemaphoreWrites i s s') : Disowned t s' := by
  intro j hj
  have hg := hw.toPasses.guarded hs.guarded
  by_cases h2 : j ≤ 2
  · exact hg.creator_ne hj.1 h2 ht
  · have hadmin : adminMutex = 0 := rfl
    rw [hw.mutexes j (by omega) (by omega)]
    exact h j hj

theorem releaseSemaphoreBody_writes (hP : Survives t P) (hs : Cleaning P s) (ht : 0 < t.pid)
    (hd : Disowned t s)
    (hi : InSemaphores i) (h : Kills.releaseSemaphoreBody mutexDownFor t i s = .ok (b,s')) :
    Cleaning P s' ∧ SemaphoreWrites i s s' ∧ s'.kernel.mutexes 1 = s.kernel.mutexes 1 ∧
      (s'.kernel.semaphores i).creator = (if (s.kernel.semaphores i).creator = t
        then { (s.kernel.semaphores i).creator with pid := notUsed }
        else (s.kernel.semaphores i).creator) ∧
      (s'.kernel.semaphores i).list = (s.kernel.semaphores i).list := by
  unfold Kills.releaseSemaphoreBody at h
  rw [get_bind] at h
  split at h
  · rename_i hc
    obtain ⟨b',s₁,hr,h⟩ := bind_ok.mp h
    rw [modify_bind] at h
    obtain ⟨⟨⟩,s₂,hl,h⟩ := bind_ok.mp h
    obtain ⟨k,hk,rfl⟩ := piece_ok.mp hl
    have hsame : k = s₁.kernel.disownSemaphore i := unlockAllSemaphore_same hk
    subst hsame
    cases h
    obtain ⟨hclean,hrel⟩ := releaseMutex_releases hP hs ht hr
    have hmutexes : ∀ j, j ≠ adminMutex → s₁.kernel.mutexes j = s.kernel.mutexes j := by
      intro j hj
      by_cases hm : j = (s.kernel.semaphores i).mutex
      · subst hm
        exact hrel.kept hj (fun hx => hd _ hx.1 hx.2)
      · exact hrel.mutexes j hj hm
    have hother : Passes s₁ { s₁ with kernel := s₁.kernel.disownSemaphore i } :=
      Passes.other rfl rfl rfl SameRecords.refl
    have hself : (s₁.kernel.disownSemaphore i).semaphores i = { s₁.kernel.semaphores i with
        creator := { (s₁.kernel.semaphores i).creator with pid := notUsed } } :=
      setSemaphore_semaphores_self _ _ _
    refine ⟨hclean.passes hother hclean.gate,⟨hrel.toPasses.trans hother,fun j hj _ => hmutexes j hj,
      fun j hj => ?_⟩,hmutexes 1 (by decide),?_,?_⟩
    · show (s₁.kernel.disownSemaphore i).semaphores j = _
      rw [← hrel.semaphores]
      exact Function.update_of_ne hj _ _
    · show ((s₁.kernel.disownSemaphore i).semaphores i).creator = _
      rw [hself,hrel.semaphores,if_pos hc.2]
    · show ((s₁.kernel.disownSemaphore i).semaphores i).list = _
      rw [hself,hrel.semaphores]
  · rename_i hc
    cases h
    have hcreator : (s.kernel.semaphores i).creator ≠ t := by
      intro hx
      refine hc ⟨⟨hi.1,hi.2,?_⟩,hx⟩
      rw [hx]
      exact used_of_pos ht t.thread
    exact ⟨hs,SemaphoreWrites.refl,rfl,(if_neg hcreator).symm,rfl⟩

theorem releaseOwnedSemaphore_writes (hP : Survives t P) (hQ : Survives t Q) (hs : Cleaning P s)
    (ht : 0 < t.pid)
    (hd : Disowned t s) (hi : InSemaphores i) (hp : Q (s.kernel.mutexes 1))
    (h : Kills.releaseOwnedSemaphore mutexDownFor ⟨t.pid,none,hne⟩ t i s = .ok (u,s')) :
    Cleaning P s' ∧ SemaphoreWrites i s s' ∧ Q (s'.kernel.mutexes 1) ∧
      (s'.kernel.semaphores i).creator = (if (s.kernel.semaphores i).creator = t
        then { (s.kernel.semaphores i).creator with pid := notUsed }
        else (s.kernel.semaphores i).creator) ∧
      (s'.kernel.semaphores i).list = (s.kernel.semaphores i).list := by
  unfold Kills.releaseOwnedSemaphore at h
  rw [get_bind] at h
  split at h
  · obtain ⟨b,x,hr,h⟩ := bind_ok.mp h
    cases h
    unfold Kills.releaseSemaphore at hr
    rw [get_bind,hs.semaphoreMutex] at hr
    obtain ⟨⟨⟩,s₁,hdown,hr⟩ := bind_ok.mp hr
    obtain ⟨b',s₂,hbody,hr⟩ := bind_ok.mp hr
    obtain ⟨⟨⟩,s₃,hup,hr⟩ := bind_ok.mp hr
    cases hr
    obtain ⟨hw₁,o,hno,htaken⟩ :=
      mutexDownFor_writes hs.guarded (by decide) le_rfl (used_of_pos ht _) hdown
    have hs₁ : Cleaning P s₁ := hs.writes hw₁ (by decide)
    have hsw₁ : SemaphoreWrites i s s₁ := hw₁.semaphoreWrites (Or.inr rfl)
    obtain ⟨hs₂,hsw₂,hone,hcreator,hlist⟩ := releaseSemaphoreBody_writes hP hs₁ ht
      (hd.semaphoreWrites hs.toOrdered ht hsw₁) hi hbody
    obtain ⟨hw₃,-⟩ := mutexUp_writes hup
    refine ⟨hs₂.writes hw₃ (by decide),(hsw₁.trans hsw₂).trans (hw₃.semaphoreWrites (Or.inr rfl)),?_,
      ?_,?_⟩
    · have hupped := mutexUp_upped (hs₂.guarded.valid (by decide) (by decide)) hup
      rw [hone] at hupped
      exact hQ hp (hs₁.sound 1 (by decide)) htaken hno hupped
    · rw [hw₃.semaphores,hcreator,hw₁.semaphores]
    · rw [hw₃.semaphores,hlist,hw₁.semaphores]
  · rename_i hc
    cases h
    have hcreator : (s.kernel.semaphores i).creator ≠ t :=
      fun hx => hc (covers_pid.mpr (congrArg ThreadId.pid hx))
    exact ⟨hs,SemaphoreWrites.refl,hp,(if_neg hcreator).symm,rfl⟩

/-! ### The entries -/

theorem removeBlockedFromSemaphore_writes (h : removeBlockedFromSemaphore v i j s = .ok (u,s')) :
    Passes s s' ∧ s'.kernel.mutexes = s.kernel.mutexes ∧
    (∀ l, l ≠ i → s'.kernel.semaphores l = s.kernel.semaphores l) ∧
    (s'.kernel.semaphores i).creator = (s.kernel.semaphores i).creator ∧
    (s'.kernel.semaphores i).list.blocked = if v.Covers ((s.kernel.semaphores i).list.blocked j)
      then Function.update (s.kernel.semaphores i).list.blocked j ThreadId.unused
      else (s.kernel.semaphores i).list.blocked := by
  obtain ⟨k,hk,rfl⟩ := piece_ok.mp h
  simp only [Kernel.removeBlockedFromSemaphore] at hk
  split at hk
  · rename_i hc
    obtain ⟨value,-,hk⟩ := Option.bind_eq_some_iff.mp hk
    obtain ⟨hm,hr⟩ := changeThreadState_table hk
    have hsame : SameRecords s.kernel k := fun pid => changeThreadState_sameRecords hk pid
    refine ⟨Passes.other hm hr.firstAvailableMutex hr.usedMutexes hsame,hm,fun l hl => ?_,?_,?_⟩
    · exact (congrFun hr.semaphores l).trans (Function.update_of_ne hl _ _)
    · show (k.semaphores i).creator = _
      rw [hr.semaphores,setSemaphore_semaphores_self]
    · show (k.semaphores i).list.blocked = _
      rw [hr.semaphores,setSemaphore_semaphores_self,if_pos hc]
      rfl
  · rename_i hc
    cases hk
    exact ⟨Passes.refl,rfl,fun _ _ => rfl,rfl,(if_neg hc).symm⟩

theorem removeBlockedSemaphore_writes
    (h : (List.range maxBlocked).forM (removeBlockedFromSemaphore v i) s = .ok (u,s')) :
    Passes s s' ∧ s'.kernel.mutexes = s.kernel.mutexes ∧
    (∀ l, l ≠ i → s'.kernel.semaphores l = s.kernel.semaphores l) ∧
    (s'.kernel.semaphores i).creator = (s.kernel.semaphores i).creator ∧
    (s'.kernel.semaphores i).list.waiters =
      (s.kernel.semaphores i).list.waiters.filter (fun w => ¬ v.Covers w) := by
  have hloop := forM_range_ok (I := fun n x => Passes s x ∧ x.kernel.mutexes = s.kernel.mutexes ∧
      (∀ l, l ≠ i → x.kernel.semaphores l = s.kernel.semaphores l) ∧
      (x.kernel.semaphores i).creator = (s.kernel.semaphores i).creator ∧
      (x.kernel.semaphores i).list.blocked =
        BlockedList.without v n (s.kernel.semaphores i).list.blocked)
    (fun n _ x x' hI hx => ?_) ⟨Passes.refl,rfl,fun _ _ => rfl,rfl,BlockedList.without_zero.symm⟩ h
  · obtain ⟨hp,hm,hs,hc,hb⟩ := hloop
    exact ⟨hp,hm,hs,hc,BlockedList.waiters_without hb⟩
  · obtain ⟨hp,hm,hs,hc,hb⟩ := hI
    obtain ⟨hp',hm',hs',hc',hb'⟩ := removeBlockedFromSemaphore_writes hx
    refine ⟨hp.trans hp',hm'.trans hm,fun l hl => (hs' l hl).trans (hs l hl),hc'.trans hc,?_⟩
    rw [hb',hb,BlockedList.without_self]
    split
    · rename_i hcover
      exact (BlockedList.without_of_covers hcover).symm
    · rename_i hcover
      exact (BlockedList.without_of_not hcover).symm

theorem sweepSemaphore_cleans {i : ℕ} (hP : Survives t P) (hQ : Survives t Q) (hs : Cleaning P s)
    (ht : 0 < t.pid)
    (hd : Disowned t s) (hi : InSemaphores i) (hp : Q (s.kernel.mutexes 1))
    (h : Kills.sweepSemaphore mutexDownFor ⟨t.pid,none,hne⟩ t i s = .ok (u,s')) :
    Cleaning P s' ∧ SemaphoreWrites i s s' ∧ Q (s'.kernel.mutexes 1) ∧
      (s.kernel.semaphores i).Cleaned t (s'.kernel.semaphores i) := by
  unfold Kills.sweepSemaphore at h
  obtain ⟨⟨⟩,s₁,howned,hrest⟩ := bind_ok.mp h
  obtain ⟨hs₁,hw₁,hp₁,hcreator,hlist⟩ := releaseOwnedSemaphore_writes hP hQ hs ht hd hi hp howned
  obtain ⟨hpass,hm,hother,hc,hb⟩ := removeBlockedSemaphore_writes hrest
  simp only [covers_pid] at hb
  have hw₂ : SemaphoreWrites i s₁ s' := ⟨hpass,fun j _ _ => by rw [hm],hother⟩
  refine ⟨hs₁.passes hpass (by rw [hm]; exact hs₁.gate),hw₁.trans hw₂,by rw [hm]; exact hp₁,?_,?_⟩
  · rw [hc,hcreator]
  · rw [hb,hlist]

end Registry

namespace Registry
variable {s s' s₁ s₂ : Registry} {m i pid thread : ℤ} {t : ThreadId} {v : Victim} {u : Unit}
  {b : Bool} {j n : ℕ} {k : Kernel} {hne : t.pid ≠ notUsed} {P Q : Mutex → Prop}

structure SemaphoresTo (t : ThreadId) (P Q : Mutex → Prop) (s : Registry) (n : ℕ) (x : Registry) : Prop
    extends Passes s x where
  cleaning : Cleaning P x
  disowned : Disowned t x
  entry : Q (x.kernel.mutexes 1)
  mutexes : ∀ j, j ≠ adminMutex → j ≠ 1 → x.kernel.mutexes j = s.kernel.mutexes j
  done : ∀ i : ℤ, 0 ≤ i → i < n → (s.kernel.semaphores i).Cleaned t (x.kernel.semaphores i)
  rest : ∀ i : ℤ, n ≤ i → x.kernel.semaphores i = s.kernel.semaphores i

theorem SemaphoresTo.next (hP : Survives t P) (hQ : Survives t Q) (ht : 0 < t.pid)
    (hn : n < maxSemaphores.toNat) (hx : SemaphoresTo t P Q s n s₁)
    (h : Kills.sweepSemaphore mutexDownFor ⟨t.pid,none,hne⟩ t n s₁ = .ok (u,s₂)) :
    SemaphoresTo t P Q s (n+1) s₂ := by
  have hmax : maxSemaphores.toNat = 64 := rfl
  have hi : InSemaphores (n : ℤ) := ⟨by omega,by show (n : ℤ) < 64; omega⟩
  obtain ⟨hclean,hw,hp,hslot⟩ := sweepSemaphore_cleans hP hQ hx.cleaning ht hx.disowned hi hx.entry h
  refine ⟨hx.toPasses.trans hw.toPasses,hclean,
    hx.disowned.semaphoreWrites hx.cleaning.toOrdered ht hw,hp,fun j hj h1 => ?_,fun i h0 hlt => ?_,
    fun i hle => ?_⟩
  · rw [hw.mutexes j hj h1,hx.mutexes j hj h1]
  · by_cases hin : i = n
    · subst hin
      rw [← hx.rest _ le_rfl]
      exact hslot
    · rw [hw.semaphores i hin]
      exact hx.done i h0 (by omega)
  · rw [hw.semaphores i (by omega),hx.rest i (by omega)]

theorem sweepSemaphores_cleans (hP : Survives t P) (hQ : Survives t Q) (hs : Cleaning P s)
    (ht : 0 < t.pid) (hd : Disowned t s) (hp : Q (s.kernel.mutexes 1))
    (h : (List.range maxSemaphores.toNat).forM
      (Kills.sweepSemaphore mutexDownFor ⟨t.pid,none,hne⟩ t) s = .ok (u,s')) :
    SemaphoresTo t P Q s maxSemaphores.toNat s' :=
  forM_range_ok (fun _ hn _ _ hx hstep => hx.next hP hQ ht hn hstep)
    ⟨Passes.refl,hs,hd,hp,fun _ _ _ => rfl,fun i h0 h1 => by exact absurd h1 (by omega),
      fun _ _ => rfl⟩ h

/-- What `removePidFromSemaphores` leaves: `semaphoreMutex` open if it was, and the victim behind it
if it was not. -/
structure SemaphoresCleaned (t : ThreadId) (P : Mutex → Prop) (s s' : Registry) : Prop
    extends Passes s s' where
  cleaning : Cleaning P s'
  mutexes : ∀ j, j ≠ adminMutex → j ≠ 1 → s'.kernel.mutexes j = s.kernel.mutexes j
  semaphores : ∀ i, InSemaphores i → (s.kernel.semaphores i).Cleaned t (s'.kernel.semaphores i)
  opened : (s.kernel.mutexes 1).value ≠ locked → (s'.kernel.mutexes 1).HeldBy none
  shut : (s.kernel.mutexes 1).value = locked → (s'.kernel.mutexes 1).ShutFor t

theorem removeFromSemaphores_cleans (hP : Survives t P) (hs : Cleaning P s) (ht : 0 < t.pid)
    (hd : Disowned t s)
    (h : Kills.removeFromSemaphores mutexDownFor ⟨t.pid,none,hne⟩ t s = .ok (u,s')) :
    SemaphoresCleaned t P s s' := by
  have hused : t.used := used_of_pos ht t.thread
  unfold Kills.removeFromSemaphores at h
  rw [get_bind,hs.semaphoreMutex] at h
  obtain ⟨⟨⟩,s₁,hdown,h⟩ := bind_ok.mp h
  obtain ⟨⟨⟩,s₂,hloop,hup⟩ := bind_ok.mp h
  obtain ⟨hw₁,o,ho,htaken⟩ := mutexDownFor_writes hs.guarded (by decide) le_rfl hused hdown
  have hs₁ : Cleaning P s₁ := hs.writes hw₁ (by decide)
  have hd₁ := hd.semaphoreWrites hs.toOrdered ht (hw₁.semaphoreWrites (i := 0) (Or.inr rfl))
  obtain ⟨hw₃,-⟩ := mutexUp_writes hup
  have hfinish : ∀ Q, SemaphoresTo t P Q s₁ maxSemaphores.toNat s₂ →
      ((s.kernel.mutexes 1).value ≠ locked → (s'.kernel.mutexes 1).HeldBy none) →
      ((s.kernel.mutexes 1).value = locked → (s'.kernel.mutexes 1).ShutFor t) →
      SemaphoresCleaned t P s s' := by
    intro Q hto hopened hshut
    refine ⟨(hw₁.toPasses.trans hto.toPasses).trans hw₃.toPasses,hto.cleaning.writes hw₃ (by decide),
      fun j hj h1 => ?_,fun i hi => ?_,hopened,hshut⟩
    · rw [hw₃.mutexes j h1,hto.mutexes j hj h1,hw₁.mutexes j h1]
    · rw [hw₃.semaphores,← hw₁.semaphores]
      exact hto.done i hi.1 hi.2
  have hupped := fun hx : Ordered s₂ => mutexUp_upped (hx.guarded.valid (by decide) (by decide)) hup
  by_cases hv : (s.kernel.mutexes 1).value = locked
  · have hstuck : (s₁.kernel.mutexes 1).Stuck t := Mutex.Stuck.of_taken hused hv ho htaken
    have hto := sweepSemaphores_cleans hP (survives_stuck hused) hs₁ ht hd₁ hstuck hloop
    have hok := hto.cleaning.sound 1 (by decide)
    refine hfinish _ hto (fun hx => absurd hv hx) (fun _ => ?_)
    exact hto.entry.upped hok (hupped hto.cleaning.toOrdered)
  · have hheld : (s₁.kernel.mutexes 1).HeldBy (some t) :=
      Mutex.HeldBy.of_taken (hs.sound 1 (by decide)) hv htaken
    have hto := sweepSemaphores_cleans hP (survives_heldBy hused (Or.inr rfl)) hs₁ ht hd₁ hheld hloop
    refine hfinish _ hto (fun _ => ?_) (fun hx => absurd hx hv)
    obtain ⟨hx,-⟩ | ⟨-,hg⟩ := hupped hto.cleaning.toOrdered
    · exact absurd hto.entry.2.2 hx
    · exact hto.entry.givenUp hg

end Registry

end ComplexOS
