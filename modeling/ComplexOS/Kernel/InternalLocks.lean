import ComplexOS.Kernel.Boot

/-! # Calls under the locks of the kernel

A call brackets its work with `adminMutex`, and with `semaphoreMutex` if it is about a
semaphore. While these keep their slots, taking one of them changes that slot only, so a
call does what its body does, and the lock is what is left of the bracket.
-/
namespace ComplexOS
open Call

namespace Kernel
variable (k : Kernel) (m : ℤ) (v : ℤ) (t : ThreadId)

/-- The lock `m` with another value and another holder on record. -/
def lockSlot : Kernel :=
  { k with mutexes := Function.update k.mutexes m { k.mutexes m with value := v, lockProcess := t } }

variable {k m v t} {k' : Kernel} {v' mutex pid thread i : ℤ} {t' : ThreadId} {name : List UInt8}
  {b : Bool}

@[simp] theorem lockSlot_self : (k.lockSlot m v t).mutexes m =
    { k.mutexes m with value := v, lockProcess := t } := Function.update_self _ _ _

theorem lockSlot_of_ne (h : i ≠ m) : (k.lockSlot m v t).mutexes i = k.mutexes i :=
  Function.update_of_ne h _ _

theorem lockSlot_creator : ((k.lockSlot m v t).mutexes i).creator = (k.mutexes i).creator := by
  by_cases h : i = m
  · subst h
    rw [lockSlot_self]
  · rw [lockSlot_of_ne h]

theorem lockSlot_name : ((k.lockSlot m v t).mutexes i).name = (k.mutexes i).name := by
  by_cases h : i = m
  · subst h
    rw [lockSlot_self]
  · rw [lockSlot_of_ne h]

theorem lockSlot_list : ((k.lockSlot m v t).mutexes i).list = (k.mutexes i).list := by
  by_cases h : i = m
  · subst h
    rw [lockSlot_self]
  · rw [lockSlot_of_ne h]

@[simp] theorem lockSlot_lockSlot :
    (k.lockSlot m v t).lockSlot m v' t' = k.lockSlot m v' t' := by
  unfold lockSlot
  simp only [Function.update_self,Function.update_idem]

theorem isValidMutex_lockSlot : (k.lockSlot m v t).isValidMutex i ↔ k.isValidMutex i := by
  unfold isValidMutex
  rw [lockSlot_creator]

theorem findMutex_lockSlot : (k.lockSlot m v t).findMutex name = k.findMutex name := by
  unfold findMutex
  simp only [SlotTable.firstUsed,lockSlot_name,lockSlot_creator]

theorem getNextMutexAvailable_lockSlot :
    (k.lockSlot m v t).getNextMutexAvailable = k.getNextMutexAvailable := by
  unfold getNextMutexAvailable
  simp only [SlotTable.firstFree,lockSlot_creator]

/-- Two slots are written in either order. -/
theorem setMutex_lockSlot {x : Mutex} (h : mutex ≠ m) :
    (k.lockSlot m v t).setMutex mutex x = (k.setMutex mutex x).lockSlot m v t := by
  unfold setMutex lockSlot
  simp only [Function.update_of_ne h.symm]
  rw [Function.update_comm h]

theorem changeThreadState_lockSlot {st : ProcessState} :
    (k.lockSlot m v t).changeThreadState t' st =
      (k.changeThreadState t' st).map (fun k => k.lockSlot m v t) := by
  unfold changeThreadState
  simp only [Option.map_map]
  rfl

theorem createMutex_lockSlot (h : k.firstAvailableMutex ≠ m) :
    (k.lockSlot m v t).createMutex pid name thread = ((k.createMutex pid name thread).1,
      (k.createMutex pid name thread).2.lockSlot m v t) := by
  have hself : (k.lockSlot m v t).mutexes k.firstAvailableMutex = k.mutexes k.firstAvailableMutex :=
    lockSlot_of_ne h
  have hset := setMutex_lockSlot (k := k) (v := v) (t := t)
    (x := named (k.mutexes k.firstAvailableMutex) name ⟨pid,thread⟩) h
  have hnext := getNextMutexAvailable_lockSlot (m := m) (v := v) (t := t) (k := k.setMutex
    k.firstAvailableMutex (named (k.mutexes k.firstAvailableMutex) name ⟨pid,thread⟩))
  by_cases hc : k.usedMutexes < maxMutexes ∧ name.length < maxName
  · have hl : (k.lockSlot m v t).createMutex pid name thread =
        (some k.firstAvailableMutex,{ (k.lockSlot m v t).setMutex k.firstAvailableMutex
            (named ((k.lockSlot m v t).mutexes k.firstAvailableMutex) name ⟨pid,thread⟩) with
          usedMutexes := k.usedMutexes+1
          firstAvailableMutex := ((k.lockSlot m v t).setMutex k.firstAvailableMutex
            (named ((k.lockSlot m v t).mutexes k.firstAvailableMutex) name
              ⟨pid,thread⟩)).getNextMutexAvailable }) := if_pos hc
    have hr : k.createMutex pid name thread =
        (some k.firstAvailableMutex,{ k.setMutex k.firstAvailableMutex
            (named (k.mutexes k.firstAvailableMutex) name ⟨pid,thread⟩) with
          usedMutexes := k.usedMutexes+1
          firstAvailableMutex := (k.setMutex k.firstAvailableMutex
            (named (k.mutexes k.firstAvailableMutex) name ⟨pid,thread⟩)).getNextMutexAvailable }) :=
      if_pos hc
    rw [hl,hr,hself,hset,hnext]
    rfl
  · have hl : (k.lockSlot m v t).createMutex pid name thread = (none,k.lockSlot m v t) := if_neg hc
    have hr : k.createMutex pid name thread = (none,k) := if_neg hc
    rw [hl,hr]

theorem unlockProcess_lockSlot (h : mutex ≠ m) : (k.lockSlot m v t).unlockProcess mutex =
    (k.unlockProcess mutex).map (fun x => (x.1,x.2.lockSlot m v t)) := by
  unfold unlockProcess
  simp only [lockSlot_of_ne h]
  cases (k.mutexes mutex).list.pop with
  | none => rfl
  | some x =>
    simp only [setMutex_lockSlot h,changeThreadState_lockSlot,Option.map_map]
    rfl

theorem unlockAll_lockSlot (h : mutex ≠ m) {n : ℕ} : unlockAll mutex n (k.lockSlot m v t) =
    (unlockAll mutex n k).map (fun k => k.lockSlot m v t) := by
  induction n generalizing k with
  | zero =>
    unfold unlockAll
    rw [lockSlot_of_ne h]
    split <;> rfl
  | succ n ih =>
    unfold unlockAll
    rw [lockSlot_of_ne h]
    split
    · simp only [unlockProcess_lockSlot h]
      cases k.unlockProcess mutex with
      | none => rfl
      | some x => exact ih
    · rfl

theorem releaseMutexBody_lockSlot (h : mutex ≠ m) :
    (k.lockSlot m v t).releaseMutexBody mutex t' =
      (k.releaseMutexBody mutex t').map (fun x => (x.1,x.2.lockSlot m v t)) := by
  have hd : (k.lockSlot m v t).disownMutex mutex = (k.disownMutex mutex).lockSlot m v t := by
    unfold disownMutex
    rw [lockSlot_of_ne h]
    exact setMutex_lockSlot h
  unfold releaseMutexBody
  simp only [isValidMutex_lockSlot,lockSlot_creator,hd,unlockAll_lockSlot h]
  split
  · simp only [Option.map_map]
    rfl
  · rfl

namespace Guarded

theorem lockSlot (h : k.Guarded) : (k.lockSlot m v t).Guarded :=
  h.congr (fun _ _ _ => by rw [lockSlot_creator]) rfl

theorem valid (h : k.Guarded) (h0 : 0 ≤ m) (h2 : m ≤ 2) : k.isValidMutex m := by
  refine ⟨h0,h2.trans_lt (by decide),?_⟩
  rw [h.creator m h0 h2]
  decide

theorem first_ne (h : k.Guarded) (h0 : 0 ≤ m) (h2 : m ≤ 2) : k.firstAvailableMutex ≠ m :=
  fun he => h.first (he ▸ ⟨h0,h2⟩)

theorem marked {x : Mutex} (h : k.Guarded) (hm : k'.mutexes = Kernel.marked k m x)
    (hx : x.creator = (k.mutexes m).creator) (hf : k'.firstAvailableMutex = k.firstAvailableMutex) :
    k'.Guarded := by
  refine h.congr (fun i h0 h2 => ?_) hf
  rw [hm]
  by_cases he : i = m
  · subst he
    rw [marked_self,hx]
  · obtain ⟨-,-,-,-,hc | ⟨-,hc⟩⟩ := marked_of_ne (k := k) (m := x) he
    · exact hc
    · rw [hc,h.creator i h0 h2]

theorem take (h : k.Guarded) : (k.take m t).Guarded := h.marked rfl rfl rfl

theorem cycle (h : k.Guarded) : (k.cycle m t).Guarded := h.marked rfl rfl rfl

/-- The mark of the exchange hits a slot that has a creator with this pid already. -/
theorem mutexDown (h : k.Guarded) (h0 : 0 ≤ m) (h1 : m ≤ 1) (hf : (k.mutexes m).value ≠ locked) :
    k.mutexDown m t = some (.returned,k.lockSlot m locked t) := by
  have hnext : ({ k.mutexes (m+1) with
      creator := { (k.mutexes (m+1)).creator with pid := 0 } } : Mutex) = k.mutexes (m+1) := by
    have hc := h.creator (m+1) (by omega) (by omega)
    cases hx : k.mutexes (m+1)
    rw [hx] at hc
    simp only at hc
    rw [hc]
  have hm : (k.take m t).mutexes = (k.lockSlot m locked t).mutexes := by
    show Function.update (Function.update k.mutexes (m+1) _) m _ = Function.update k.mutexes m _
    rw [hnext,Function.update_eq_self]
  rw [mutexDown_take (h.valid h0 (by omega)) hf]
  exact congrArg (fun x => some (DownOutcome.returned,{ k with mutexes := x })) hm

/-- The holder gives a lock up that nobody waits for. -/
theorem mutexUp (h : k.Guarded) (h0 : 0 ≤ m) (h2 : m ≤ 2) (hp : (k.mutexes m).list.pop = none) :
    (k.lockSlot m v t).mutexUp m t = some (k.lockSlot m unlocked t) := by
  rw [mutexUp_last (isValidMutex_lockSlot.mpr (h.valid h0 h2)) (by rw [lockSlot_self])
    (by rw [lockSlot_list]; exact hp)]
  have hm : Function.update (k.lockSlot m v t).mutexes m
      { (k.lockSlot m v t).mutexes m with value := unlocked } = (k.lockSlot m unlocked t).mutexes := by
    rw [lockSlot_self]
    unfold Kernel.lockSlot
    simp only [Function.update_idem]
  exact congrArg (fun x => some { k with mutexes := x }) hm

end Guarded

/-- Nobody waits, so nobody has to be woken. -/
theorem releaseMutexBody_idle (hq : (k.mutexes mutex).list.blockedQuantity = 0) :
    k.releaseMutexBody mutex t = some (if k.isValidMutex mutex ∧ (k.mutexes mutex).creator = t then
      (true,k.disownMutex mutex) else (false,k)) := by
  have hself : (k.disownMutex mutex).mutexes mutex = { k.mutexes mutex with
      creator := { (k.mutexes mutex).creator with pid := notUsed }
      lockProcess := { (k.mutexes mutex).lockProcess with pid := notUsed } } :=
    setMutex_mutexes_self k mutex _
  unfold releaseMutexBody
  split
  · have hnone : unlockAll mutex maxBlocked (k.disownMutex mutex) = some (k.disownMutex mutex) := by
      unfold unlockAll
      rw [if_neg]
      rw [hself]
      simp [hq]
    rw [hnone]
    rfl
  · rfl

theorem unlockAllSemaphore_idle {semaphore : ℤ} {n : ℕ}
    (hq : (k.semaphores semaphore).list.blockedQuantity = 0) :
    unlockAllSemaphore semaphore n k = some k := by
  unfold unlockAllSemaphore
  rw [if_neg]
  simp [hq]

end Kernel

namespace Registry
open Kernel
variable {s : Registry} {mutex pid thread i : ℤ} {t : ThreadId} {name : List UInt8}
  {r : Option ℤ} {b : Bool} {k : Kernel}

theorem mutexDown_waits (hv : s.kernel.isValidMutex mutex)
    (hl : (s.kernel.mutexes mutex).value = locked) :
    mutexDown mutex t s = .error (.waits mutex t (s.kernel.mutexes mutex).lockProcess) := by
  unfold mutexDown
  split
  · rename_i k hk
    obtain ⟨hx,-⟩ | ⟨-,-,m,ht,-⟩ := mutexDown_cases hk
    · exact absurd hv hx
    · cases ht with
      | free hx => exact absurd hl hx
  · rfl

/-- The bracket of a lock around a piece of code that leaves its slot alone. -/
theorem mutexDown_guarded (hg : s.kernel.Guarded) (h0 : 0 ≤ mutex) (h1 : mutex ≤ 1)
    (hf : (s.kernel.mutexes mutex).value ≠ locked) :
    mutexDown mutex t s = .ok ((),{ s with kernel := s.kernel.lockSlot mutex locked t }) :=
  mutexDown_ok.mpr ⟨_,hg.mutexDown h0 h1 hf,rfl⟩

theorem mutexUp_guarded (hg : k.Guarded) (hk : s.kernel = k.lockSlot mutex locked t)
    (h0 : 0 ≤ mutex) (h2 : mutex ≤ 2) (hp : (k.mutexes mutex).list.pop = none) :
    mutexUp mutex t s = .ok ((),{ s with kernel := k.lockSlot mutex unlocked t }) :=
  mutexUp_ok.mpr ⟨_,by rw [hk]; exact hg.mutexUp h0 h2 hp,rfl⟩

/-- A name that is there is answered with the lock kept. -/
theorem getMutex_hit (hg : s.kernel.Guarded) (hf : (s.kernel.mutexes adminMutex).value ≠ locked)
    (hi : s.kernel.findMutex name = some i) :
    getMutex name pid thread s =
      .ok (some i,{ s with kernel := s.kernel.lockSlot adminMutex locked ⟨pid,thread⟩ }) := by
  unfold getMutex
  rw [bind_of_ok (mutexDown_guarded hg (by decide) (by decide) hf),get_bind]
  simp only [findMutex_lockSlot,hi]
  rfl

theorem getMutex_miss (hg : s.kernel.Guarded) (hf : (s.kernel.mutexes adminMutex).value ≠ locked)
    (hp : (s.kernel.mutexes adminMutex).list.pop = none) (hi : s.kernel.findMutex name = none)
    (hc : s.kernel.createMutex pid name thread = (r,k)) :
    getMutex name pid thread s =
      .ok (r,{ s with kernel := k.lockSlot adminMutex unlocked ⟨pid,thread⟩ }) := by
  have hfirst := hg.first_ne (m := adminMutex) (by decide) (by decide)
  have hcreate : createMutex pid name thread
      { s with kernel := s.kernel.lockSlot adminMutex locked ⟨pid,thread⟩ } =
        .ok (r,{ s with kernel := k.lockSlot adminMutex locked ⟨pid,thread⟩ }) := by
    unfold createMutex
    simp only [createMutex_lockSlot hfirst,hc]
  have hself : k.mutexes adminMutex = s.kernel.mutexes adminMutex := by
    obtain ⟨-,-,rfl⟩ | ⟨-,-,-,hm,-⟩ := createMutex_cases hc
    · rfl
    · rw [hm,Function.update_of_ne hfirst.symm]
  unfold getMutex
  rw [bind_of_ok (mutexDown_guarded hg (by decide) (by decide) hf),get_bind]
  simp only [findMutex_lockSlot,hi]
  rw [bind_of_ok hcreate,bind_of_ok (mutexUp_guarded (hg.createMutex hc) rfl (by decide)
      (by decide) (by rw [hself]; exact hp))]
  rfl

theorem getMutex_waits (hg : s.kernel.Guarded) (hl : (s.kernel.mutexes adminMutex).value = locked) :
    getMutex name pid thread s =
      .error (.waits adminMutex ⟨pid,thread⟩ (s.kernel.mutexes adminMutex).lockProcess) :=
  bind_of_error (mutexDown_waits (hg.valid (by decide) (by decide)) hl)

/-- A release does what its body does. -/
theorem releaseMutex_guarded (hg : s.kernel.Guarded)
    (hf : (s.kernel.mutexes adminMutex).value ≠ locked)
    (hp : (s.kernel.mutexes adminMutex).list.pop = none) (hpid : 0 < pid)
    (hb : s.kernel.releaseMutexBody mutex ⟨pid,thread⟩ = some (b,k)) :
    releaseMutex pid mutex thread s =
      .ok (b,{ s with kernel := k.lockSlot adminMutex unlocked ⟨pid,thread⟩ }) := by
  have hbody : (s.kernel.lockSlot adminMutex locked ⟨pid,thread⟩).releaseMutexBody mutex ⟨pid,thread⟩ =
      some (b,k.lockSlot adminMutex locked ⟨pid,thread⟩) := by
    by_cases he : mutex = adminMutex
    · subst he
      have hne := hg.creator_ne (i := adminMutex) (t := ⟨pid,thread⟩) (by decide) (by decide) hpid
      have hl := hg.lockSlot (m := adminMutex) (v := locked) (t := ⟨pid,thread⟩)
      have hne' := hl.creator_ne (i := adminMutex) (t := ⟨pid,thread⟩) (by decide) (by decide) hpid
      unfold Kernel.releaseMutexBody at hb ⊢
      rw [if_neg (fun hx => hne hx.2)] at hb
      rw [if_neg (fun hx => hne' hx.2)]
      cases hb
      rfl
    · rw [releaseMutexBody_lockSlot he,hb]
      rfl
  have hself : (k.mutexes adminMutex).list.pop = none := by
    obtain ⟨-,-,rfl⟩ | ⟨-,-,hc,-,m,hm,-⟩ := releaseMutexBody_cases hb
    · exact hp
    · have hne : adminMutex ≠ mutex := fun he =>
        hg.creator_ne (i := adminMutex) (by decide) (by decide) hpid (he ▸ hc)
      rw [hm,Function.update_of_ne hne]
      exact hp
  unfold releaseMutex
  rw [bind_of_ok (mutexDown_guarded hg (by decide) (by decide) hf),
    bind_of_ok (releaseMutexBody_ok.mpr ⟨_,hbody,rfl⟩),
    bind_of_ok (mutexUp_guarded (hg.releaseMutexBody hpid hb) rfl (by decide) (by decide) hself)]
  rfl

theorem releaseMutex_waits (hg : s.kernel.Guarded)
    (hl : (s.kernel.mutexes adminMutex).value = locked) :
    releaseMutex pid mutex thread s =
      .error (.waits adminMutex ⟨pid,thread⟩ (s.kernel.mutexes adminMutex).lockProcess) :=
  bind_of_error (mutexDown_waits (hg.valid (by decide) (by decide)) hl)

end Registry
end ComplexOS
