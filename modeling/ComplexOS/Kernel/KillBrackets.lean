import ComplexOS.Kernel.KillerCalls

/-! # Brackets of a kill

What one `mutexDown` and one `mutexUp` in the name of the victim make of a slot, waiting or not,
and what a bracket of the two around a release leaves of `adminMutex`.
-/
namespace ComplexOS
open Kernel Call

def Upped (t : ThreadId) (m m' : Mutex) : Prop :=
  m.lockProcess ≠ t ∧ m' = m ∨ m.lockProcess = t ∧ GivenUp m m'

namespace Mutex
variable {m m' m'' : Mutex} {a : Option ThreadId} {t : ThreadId} {o : DownOutcome}

/-- The bracket of a lock that is open, or that its caller has: with room for the caller on the list
it is afterwards as it was. -/
theorem HeldBy.bracket (h : m.HeldBy a) (ha : a = none ∨ a = some t) (ht : t.used)
    (hd : Taken m t o m') (ho : o ≠ .full) : m'.lockProcess = t ∧ (GivenUp m' m'' → m''.HeldBy a) := by
  cases hd with
  | free hv =>
    obtain rfl | rfl := ha
    · refine ⟨rfl,fun hg => ?_⟩
      have hx : Mutex.HeldBy { m with value := locked, lockProcess := t } (some t) := ⟨h.1,rfl,rfl⟩
      exact hx.givenUp hg
    · exact absurd h.2.1 hv
  | queued hv hadd =>
    obtain rfl | rfl := ha
    · have hopen : m.value = unlocked := h.2
      rw [hopen] at hv
      exact absurd hv (by decide)
    · refine ⟨h.2.2,fun hg => ?_⟩
      have hl := h.1.add_some (Finset.notMem_empty t) ht hadd
      cases hg with
      | free hp =>
        obtain ⟨w,-,l,hp',-⟩ := hl.pop ⟨t,Finset.mem_insert_self t ∅⟩
        rw [hp] at hp'
        cases hp'
      | handed hp =>
        obtain ⟨hw,hl'⟩ := hl.pop_some hp
        obtain rfl : _ = t := by simpa using hw
        refine ⟨?_,rfl,rfl⟩
        simpa using hl'
  | full => exact absurd rfl ho

def GaveUp (pid : ℤ) (m m' : Mutex) : Prop :=
  if m.creator.pid ≠ notUsed ∧ m.lockProcess = ⟨pid,pid⟩ then GivenUp m m' else m' = m

/-- What `releaseMutex` leaves: the last thread that it has woken is the holder on record. -/
structure Released (m m' : Mutex) : Prop where
  creator : m'.creator.pid = notUsed
  value : m'.value = m.value
  waiters : m'.list.waiters = []
  lockProcess : m'.lockProcess =
    m.list.waiters.getLast?.getD { m.lockProcess with pid := notUsed }

inductive Cleaned (t : ThreadId) (m m' : Mutex) : Prop
  | released (hc : m.creator = t) (hr : m.Released m')
  | swept {m₁ : Mutex} (hc : m.creator ≠ t) (hg : GaveUp t.pid m m₁) (hm : m'.creator = m.creator)
    (hv : m'.value = m₁.value) (hl : m'.lockProcess = m₁.lockProcess)
    (hw : m'.list.waiters = m₁.list.waiters.filter (fun w => w.pid ≠ t.pid))

/-- The mutex is shut, and `x` has it or waits for it. -/
def ShutFor (x : ThreadId) (m : Mutex) : Prop :=
  m.value = locked ∧ (m.lockProcess = x ∨ x ∈ m.list.waiters)

/-- A caller of `mutexDown` waits behind the mutex. -/
def Stuck (t : ThreadId) (m : Mutex) : Prop := m.value = locked ∧ t ∈ m.list.waiters

variable {x : ThreadId} {l : BlockedList}

theorem mem_waiters_add (ht : t.used) (h : m.list.add t = some l) (hx : x ∈ m.list.waiters) :
    x ∈ l.waiters := by
  obtain ⟨as,bs,hold,hnew⟩ := BlockedList.waiters_add_split ht h
  rw [hold] at hx
  rw [hnew]
  obtain hx | hx := List.mem_append.mp hx
  · exact List.mem_append_left _ hx
  · exact List.mem_append_right _ (List.mem_cons_of_mem _ hx)

/-- Somebody waits, so that the mutex is handed on. -/
theorem handed_of_mem (h : GivenUp m m') (hok : m.Ok) (hx : x ∈ m.list.waiters) :
    ∃ w l, m.list.pop = some (w,l) ∧ m' = { m with lockProcess := w, list := l } := by
  cases h with
  | free hp =>
    rw [hok.counted.waiters_nil.mpr (hok.counted.pop_none.mp hp)] at hx
    exact absurd hx List.not_mem_nil
  | handed hp => exact ⟨_,_,hp,rfl⟩

theorem Stuck.of_taken (ht : t.used) (hv : m.value = locked) (ho : o ≠ .full) (hd : Taken m t o m') :
    m'.Stuck t := by
  cases hd with
  | free hf => exact absurd hv hf
  | full => exact absurd rfl ho
  | queued _ hadd =>
    rename_i l
    obtain ⟨as,bs,-,hnew⟩ := BlockedList.waiters_add_split ht hadd
    refine ⟨rfl,?_⟩
    show t ∈ l.waiters
    rw [hnew]
    exact List.mem_append_right _ List.mem_cons_self

theorem HeldBy.of_taken (hok : m.Ok) (hv : m.value ≠ locked) (hd : Taken m t o m') :
    m'.HeldBy (some t) := by
  cases hd with
  | free => exact ⟨hok.counted.holds_empty (hok.idle hv),rfl,rfl⟩
  | queued hl => exact absurd hl hv
  | full hl => exact absurd hl hv

theorem ShutFor.givenUp (h : m.ShutFor x) (hok : m.Ok) (hx : m.lockProcess ≠ x) (hg : GivenUp m m') :
    m'.ShutFor x := by
  have hmem := h.2.resolve_left hx
  obtain ⟨w,l,hp,rfl⟩ := Mutex.handed_of_mem hg hok hmem
  rw [BlockedList.waiters_pop hp] at hmem
  refine ⟨h.1,?_⟩
  obtain rfl | hmem := List.mem_cons.mp hmem
  · exact Or.inl rfl
  · exact Or.inr hmem

theorem ShutFor.taken (h : m.ShutFor x) (ht : t.used) (hd : Taken m t o m') : m'.ShutFor x := by
  cases hd with
  | free hv => exact absurd h.1 hv
  | queued _ ha => exact ⟨rfl,h.2.imp id (mem_waiters_add ht ha)⟩
  | full => exact ⟨rfl,h.2⟩

theorem Stuck.upped (h : m.Stuck t) (hok : m.Ok) (hu : Upped t m m') : m'.ShutFor t := by
  obtain ⟨-,rfl⟩ | ⟨-,hg⟩ := hu
  · exact ⟨h.1,Or.inr h.2⟩
  · obtain ⟨w,l,hp,rfl⟩ := handed_of_mem hg hok h.2
    have hmem := h.2
    rw [BlockedList.waiters_pop hp] at hmem
    refine ⟨h.1,?_⟩
    obtain rfl | hmem := List.mem_cons.mp hmem
    · exact Or.inl rfl
    · exact Or.inr hmem

/-- The mutex is open, held by `t` alone, or shut for another thread. -/
theorem Ok.cases (h : m.Ok) (ht : t ∉ m.list.waiters) :
    m.HeldBy none ∨ m.HeldBy (some t) ∨ ∃ x ≠ t, m.ShutFor x := by
  by_cases hv : m.value = locked
  · by_cases hl : m.lockProcess = t
    · cases hw : m.list.waiters with
      | nil => exact Or.inr (Or.inl ⟨h.counted.holds_empty (h.counted.waiters_nil.mp hw),hv,hl⟩)
      | cons w ws =>
        have hmem : w ∈ m.list.waiters := by
          rw [hw]
          exact List.mem_cons_self
        exact Or.inr (Or.inr ⟨w,fun he => ht (he ▸ hmem),hv,Or.inr hmem⟩)
    · exact Or.inr (Or.inr ⟨_,hl,hv,Or.inl rfl⟩)
  · exact Or.inl ⟨h.counted.holds_empty (h.idle hv),h.open_value hv⟩

end Mutex

/-! ### Brackets -/

def Survives (t : ThreadId) (P : Mutex → Prop) : Prop := ∀ ⦃m m' m'' : Mutex⦄ ⦃o : DownOutcome⦄,
  P m → m'.Ok → Taken m t o m' → o ≠ .full → Upped t m' m'' → P m''

section
variable {t x : ThreadId} {m m' : Mutex}

theorem survives_heldBy (ht : t.used) {a : Option ThreadId} (ha : a = none ∨ a = some t) :
    Survives t (fun m => m.HeldBy a) := by
  intro m m' m'' o h _ hd ho hu
  obtain ⟨hl,hg⟩ : m'.lockProcess = t ∧ (GivenUp m' m'' → m''.HeldBy a) := h.bracket ha ht hd ho
  obtain ⟨hx,-⟩ | ⟨-,hu⟩ := hu
  · exact absurd hl hx
  · exact hg hu

theorem Mutex.ShutFor.upped (h : m.ShutFor x) (hok : m.Ok) (hx : x ≠ t) (hu : Upped t m m') :
    m'.ShutFor x := by
  obtain ⟨-,rfl⟩ | ⟨hl,hg⟩ := hu
  · exact h
  · exact h.givenUp hok (fun he => hx (he.symm.trans hl)) hg

theorem survives_shutFor (ht : t.used) (hx : x ≠ t) : Survives t (Mutex.ShutFor x) :=
  fun _ _ _ _ h hok hd _ hu => (h.taken ht hd).upped hok hx hu

/-- Who is queued behind itself stays so: `mutexUp` lets one of its entries go at most. -/
theorem survives_stuck (ht : t.used) : Survives t (Mutex.Stuck t) := by
  intro m m' m'' o h hok hd ho hu
  cases hd with
  | free hv => exact absurd h.1 hv
  | full => exact absurd rfl ho
  | queued hv hadd =>
    rename_i l
    obtain ⟨as,bs,hold,hnew⟩ := BlockedList.waiters_add_split ht hadd
    have hmem : t ∈ l.waiters := by
      rw [hnew]
      simp
    obtain ⟨-,rfl⟩ | ⟨-,hg⟩ := hu
    · exact ⟨rfl,hmem⟩
    · obtain ⟨w,l',hp,rfl⟩ := Mutex.handed_of_mem hg hok hmem
      refine ⟨rfl,?_⟩
      have hpop : as++t::bs = w::l'.waiters := by
        rw [← hnew]
        exact BlockedList.waiters_pop hp
      have hmem := h.2
      rw [hold] at hmem
      show t ∈ l'.waiters
      cases as with
      | nil =>
        obtain ⟨-,hrest⟩ := List.cons.inj hpop
        rw [← hrest]
        exact hmem
      | cons a as =>
        obtain ⟨-,hrest⟩ := List.cons.inj hpop
        rw [← hrest]
        simp

end

namespace Registry
variable {s s' s₁ s₂ : Registry} {m i pid thread : ℤ} {t : ThreadId} {v : Victim} {u : Unit}
  {a : Option ThreadId} {b : Bool} {j : ℕ} {k : Kernel}

theorem mutexDownFor_ok (h : mutexDownFor m t s = .ok (u,s')) : ∃ o k,
    s.kernel.mutexDown m t = some (o,k) ∧ o ≠ .full ∧ s' = { s with kernel := k } := by
  unfold mutexDownFor at h
  split at h
  · rename_i k hk
    cases h
    exact ⟨_,k,hk,by decide,rfl⟩
  · rename_i k hk
    split at h
    · cases h
    · cases h
      exact ⟨_,k,hk,by decide,rfl⟩
  · cases h

/-- Where `mutexDown` comes back, it does so for any caller. -/
theorem mutexDown_extends : Extends (mutexDown m t) (mutexDownFor m t) := by
  intro s u s' h
  obtain ⟨k,hk,rfl⟩ := mutexDown_ok.mp h
  unfold mutexDownFor
  rw [hk]

structure Passes (s s' : Registry) : Prop where
  reaches : Reaches TableStep.ByProcess s.kernel s'.kernel
  records : SameRecords s.kernel s'.kernel
  heap : s'.heap = s.heap
  semaphoreMutex : s'.semaphoreMutex = s.semaphoreMutex
  buddyMutex : s'.buddyMutex = s.buddyMutex

namespace Passes

theorem refl : Passes s s := ⟨Reaches.refl,SameRecords.refl,rfl,rfl,rfl⟩

theorem trans (h : Passes s s₁) (h' : Passes s₁ s') : Passes s s' :=
  ⟨h.reaches.trans h'.reaches,h.records.trans h'.records,h'.heap.trans h.heap,
    h'.semaphoreMutex.trans h.semaphoreMutex,
    h'.buddyMutex.trans h.buddyMutex⟩

theorem guarded (h : Passes s s') (hg : s.kernel.Guarded) : s'.kernel.Guarded :=
  (h.reaches.invariant (I := fun x => x.kernel.Guarded)
    (fun _ _ _ hI hl hs => Guarded.step hI hl hs) ∅ hg).choose_spec

theorem sound (h : Passes s s') (hs : ∀ i, InMutexes i → (s.kernel.mutexes i).Ok) :
    ∀ i, InMutexes i → (s'.kernel.mutexes i).Ok :=
  (h.reaches.invariant (I := MutexTable.Sound)
    (fun _ _ _ hI _ hs => MutexTable.step_sound hI hs) ∅ hs).choose_spec

/-- A change of the processes or of the semaphores. -/
theorem other (hm : k.mutexes = s.kernel.mutexes)
    (hf : k.firstAvailableMutex = s.kernel.firstAvailableMutex)
    (hu : k.usedMutexes = s.kernel.usedMutexes) (ht : SameRecords s.kernel k) :
    Passes s { s with kernel := k } :=
  ⟨Reaches.other trivial hm hf hu,ht,rfl,rfl,rfl⟩

end Passes

/-! ### The pieces -/

structure Writes (i : ℤ) (s s' : Registry) : Prop extends Passes s s' where
  mutexes : ∀ j, j ≠ i → s'.kernel.mutexes j = s.kernel.mutexes j
  semaphores : s'.kernel.semaphores = s.kernel.semaphores

theorem Writes.refl : Writes i s s := ⟨Passes.refl,fun _ _ => rfl,rfl⟩

theorem Writes.trans (h : Writes i s s₁) (h' : Writes i s₁ s') : Writes i s s' :=
  ⟨h.toPasses.trans h'.toPasses,fun j hj => (h'.mutexes j hj).trans (h.mutexes j hj),
    h'.semaphores.trans h.semaphores⟩

theorem mutexDownFor_writes (hg : s.kernel.Guarded) (h0 : 0 ≤ m) (h1 : m ≤ 1) (ht : t.used)
    (h : mutexDownFor m t s = .ok (u,s')) : Writes m s s' ∧ ∃ o, o ≠ .full ∧
      Taken (s.kernel.mutexes m) t o (s'.kernel.mutexes m) := by
  obtain ⟨o,k,hk,ho,rfl⟩ := mutexDownFor_ok h
  have hpass : Passes s { s with kernel := k } :=
    ⟨Reaches.mutexDown trivial ht hk,mutexDown_sameRecords hk,rfl,rfl,rfl⟩
  obtain ⟨hx,-⟩ | ⟨-,hr,x,hx,hm⟩ := mutexDown_cases hk
  · exact absurd (hg.valid h0 (by omega)) hx
  · rw [hg.marked_eq h0 h1] at hm
    refine ⟨⟨hpass,fun j hj => ?_,hr.semaphores⟩,o,ho,?_⟩
    · exact (congrFun hm j).trans (Function.update_of_ne hj _ _)
    · have hself : k.mutexes m = x := (congrFun hm m).trans (Function.update_self _ _ _)
      show Taken _ t o (k.mutexes m)
      rw [hself]
      exact hx

theorem mutexUp_writes (h : mutexUp m t s = .ok (u,s')) : Writes m s s' ∧
    (¬ (s.kernel.isValidMutex m ∧ (s.kernel.mutexes m).lockProcess = t) ∧
        s'.kernel.mutexes m = s.kernel.mutexes m ∨
      s.kernel.isValidMutex m ∧ (s.kernel.mutexes m).lockProcess = t ∧
        GivenUp (s.kernel.mutexes m) (s'.kernel.mutexes m)) := by
  obtain ⟨k,hk,rfl⟩ := mutexUp_ok.mp h
  have hpass : Passes s { s with kernel := k } :=
    ⟨Reaches.mutexUp trivial hk,mutexUp_sameRecords hk,rfl,rfl,rfl⟩
  obtain ⟨hx,rfl⟩ | ⟨hv,hl,hr,x,hx,hm⟩ := mutexUp_cases hk
  · exact ⟨Writes.refl,Or.inl ⟨hx,rfl⟩⟩
  · refine ⟨⟨hpass,fun j hj => (congrFun hm j).trans (Function.update_of_ne hj _ _),hr.semaphores⟩,
      Or.inr ⟨hv,hl,?_⟩⟩
    have hself : k.mutexes m = x := (congrFun hm m).trans (Function.update_self _ _ _)
    show GivenUp _ (k.mutexes m)
    rw [hself]
    exact hx

theorem mutexUp_upped (hv : s.kernel.isValidMutex m) (h : mutexUp m t s = .ok (u,s')) :
    Upped t (s.kernel.mutexes m) (s'.kernel.mutexes m) := by
  obtain ⟨-,⟨hx,hsame⟩ | ⟨-,hl,hg⟩⟩ := mutexUp_writes h
  · exact Or.inl ⟨fun hl => hx ⟨hv,hl⟩,hsame⟩
  · exact Or.inr ⟨hl,hg⟩

theorem releaseMutexBody_writes (hp : 0 < t.pid) (hok : InMutexes m → (s.kernel.mutexes m).Ok)
    (h : releaseMutexBody m t s = .ok (b,s')) : Writes m s s' ∧
    (¬ (s.kernel.isValidMutex m ∧ (s.kernel.mutexes m).creator = t) ∧
        s'.kernel.mutexes m = s.kernel.mutexes m ∨
      InMutexes m ∧ (s.kernel.mutexes m).creator = t ∧
        (s.kernel.mutexes m).Released (s'.kernel.mutexes m)) := by
  obtain ⟨k,hk,rfl⟩ := releaseMutexBody_ok.mp h
  have hpass : Passes s { s with kernel := k } :=
    ⟨Reaches.releaseMutex (by exact hp) hk,releaseMutexBody_sameRecords hk,rfl,rfl,rfl⟩
  obtain ⟨-,hx,rfl⟩ | ⟨-,hv,hc,hr,x,hm,hcr,-,hval,-⟩ := releaseMutexBody_cases hk
  · exact ⟨Writes.refl,Or.inl ⟨hx,rfl⟩⟩
  · have hself : k.mutexes m = x := (congrFun hm m).trans (Function.update_self _ _ _)
    obtain ⟨hw,hl⟩ := releaseMutexBody_last (hok ⟨hv.1,hv.2.1⟩).counted hv hc hk
    refine ⟨⟨hpass,fun j hj => (congrFun hm j).trans (Function.update_of_ne hj _ _),hr.semaphores⟩,
      Or.inr ⟨⟨hv.1,hv.2.1⟩,hc,?_,?_,hw,hl⟩⟩
    · show (k.mutexes m).creator.pid = notUsed
      rw [hself]
      exact hcr
    · show (k.mutexes m).value = _
      rw [hself]
      exact hval

theorem removeBlockedFromMutex_writes (hi : InMutexes i) (hj : j < maxBlocked)
    (h : removeBlockedFromMutex v i j s = .ok (u,s')) : Writes i s s' ∧
    s'.kernel.mutexes i = { s.kernel.mutexes i with list := (s'.kernel.mutexes i).list } ∧
    (s'.kernel.mutexes i).list.blocked = if v.Covers ((s.kernel.mutexes i).list.blocked j)
      then Function.update (s.kernel.mutexes i).list.blocked j ThreadId.unused
      else (s.kernel.mutexes i).list.blocked := by
  obtain ⟨k,hk,rfl⟩ := piece_ok.mp h
  have hpass : Passes s { s with kernel := k } := by
    refine ⟨Reaches.step (l := .removeBlocked v i j) trivial (fun live => ⟨live,?_⟩),
      removeBlockedFromMutex_sameRecords hk,rfl,rfl,rfl⟩
    simp only [MutexTable.step,if_pos (And.intro hi hj),hk,Option.map_some]
  obtain ⟨hc,rfl⟩ | ⟨hc,hr,hm⟩ := removeBlockedFromMutex_cases hk
  · exact ⟨Writes.refl,rfl,(if_neg hc).symm⟩
  · have hself : k.mutexes i = { s.kernel.mutexes i with list := (s.kernel.mutexes i).list.remove j } :=
      (congrFun hm i).trans (Function.update_self _ _ _)
    refine ⟨⟨hpass,fun l hl => (congrFun hm l).trans (Function.update_of_ne hl _ _),hr.semaphores⟩,?_,?_⟩
    · show k.mutexes i = { s.kernel.mutexes i with list := (k.mutexes i).list }
      rw [hself]
    · show (k.mutexes i).list.blocked = _
      rw [hself,if_pos hc]
      rfl

/-- The sweep of a list takes the entries of the victim out. -/
theorem removeBlocked_writes (hi : InMutexes i)
    (h : (List.range maxBlocked).forM (removeBlockedFromMutex v i) s = .ok (u,s')) : Writes i s s' ∧
    s'.kernel.mutexes i = { s.kernel.mutexes i with list := (s'.kernel.mutexes i).list } ∧
    (s'.kernel.mutexes i).list.waiters =
      (s.kernel.mutexes i).list.waiters.filter (fun w => ¬ v.Covers w) := by
  have hloop := forM_range_ok (I := fun n x => Writes i s x ∧
      x.kernel.mutexes i = { s.kernel.mutexes i with list := (x.kernel.mutexes i).list } ∧
      (x.kernel.mutexes i).list.blocked =
        BlockedList.without v n (s.kernel.mutexes i).list.blocked)
    (fun n hn x x' hI hx => ?_) ⟨Writes.refl,rfl,BlockedList.without_zero.symm⟩ h
  · exact ⟨hloop.1,hloop.2.1,BlockedList.waiters_without hloop.2.2⟩
  · obtain ⟨hw,hself,hlist⟩ := hI
    obtain ⟨hw',hself',hlist'⟩ := removeBlockedFromMutex_writes hi hn hx
    refine ⟨hw.trans hw',?_,?_⟩
    · rw [hself',hself]
    · rw [hlist',hlist,BlockedList.without_self]
      split
      · rename_i hc
        exact (BlockedList.without_of_covers hc).symm
      · rename_i hc
        exact (BlockedList.without_of_not hc).symm

end Registry

namespace Registry
variable {s s' s₁ s₂ : Registry} {m i pid thread : ℤ} {t : ThreadId} {v : Victim} {u : Unit}
  {P Q : Mutex → Prop} {b : Bool} {j : ℕ} {k : Kernel}

structure Ordered (s : Registry) : Prop where
  guarded : s.kernel.Guarded
  sound : ∀ i, InMutexes i → (s.kernel.mutexes i).Ok
  semaphoreMutex : s.semaphoreMutex = 1
  buddyMutex : s.buddyMutex = adminMutex

theorem Ordered.passes (h : Ordered s) (hp : Passes s s') : Ordered s' :=
  ⟨hp.guarded h.guarded,hp.sound h.sound,hp.semaphoreMutex.trans h.semaphoreMutex,
    hp.buddyMutex.trans h.buddyMutex⟩

structure Cleaning (P : Mutex → Prop) (s : Registry) : Prop extends Ordered s where
  gate : P (s.kernel.mutexes adminMutex)

theorem Cleaning.passes (h : Cleaning P s) (hp : Passes s s') (hq : Q (s'.kernel.mutexes adminMutex)) :
    Cleaning Q s' :=
  ⟨h.toOrdered.passes hp,hq⟩

theorem Cleaning.writes (h : Cleaning P s) (hw : Writes i s s') (hi : i ≠ adminMutex) :
    Cleaning P s' := by
  apply h.passes hw.toPasses
  rw [hw.mutexes _ hi.symm]
  exact h.gate

theorem Cleaning.creator_ne (h : Cleaning P s) (ht : 0 < t.pid) (h0 : 0 ≤ i) (h2 : i ≤ 2) :
    (s.kernel.mutexes i).creator ≠ t := h.guarded.creator_ne h0 h2 ht

/-! ### Releases in the name of the victim -/

/-- A bracket of `adminMutex` or of `semaphoreMutex` in the name of `t`, around a call that leaves
the lock alone. -/
theorem bracket_survives (hP : Survives t P) (ho : Ordered s) (h0 : 0 ≤ m) (h1 : m ≤ 1) (ht : 0 < t.pid)
    (hp : P (s.kernel.mutexes m)) (hdown : mutexDownFor m t s = .ok (u,s₁)) (hg₂ : s₂.kernel.Guarded)
    (hsame : s₂.kernel.mutexes m = s₁.kernel.mutexes m) (hup : mutexUp m t s₂ = .ok (u,s')) :
    P (s'.kernel.mutexes m) := by
  obtain ⟨hw,o,hno,htaken⟩ := mutexDownFor_writes ho.guarded h0 h1 (used_of_pos ht _) hdown
  have hupped := mutexUp_upped (hg₂.valid h0 (by omega)) hup
  rw [hsame] at hupped
  exact hP hp (hw.toPasses.sound ho.sound m ⟨h0,by unfold maxMutexes; omega⟩) htaken hno hupped

structure Releases (t : ThreadId) (m : ℤ) (s s' : Registry) : Prop extends Passes s s' where
  mutexes : ∀ j, j ≠ adminMutex → j ≠ m → s'.kernel.mutexes j = s.kernel.mutexes j
  semaphores : s'.kernel.semaphores = s.kernel.semaphores
  kept : m ≠ adminMutex → ¬ (InMutexes m ∧ (s.kernel.mutexes m).creator = t) →
    s'.kernel.mutexes m = s.kernel.mutexes m
  released : InMutexes m → (s.kernel.mutexes m).creator = t →
    (s.kernel.mutexes m).Released (s'.kernel.mutexes m)

theorem releaseMutex_releases (hP : Survives t P) (hs : Cleaning P s) (ht : 0 < t.pid)
    (h : Kills.releaseMutex mutexDownFor t.pid m t.thread s = .ok (b,s')) :
    Cleaning P s' ∧ Releases t m s s' := by
  unfold Kills.releaseMutex at h
  obtain ⟨⟨⟩,s₁,hdown,h⟩ := bind_ok.mp h
  obtain ⟨b',s₂,hbody,h⟩ := bind_ok.mp h
  obtain ⟨⟨⟩,s₃,hup,h⟩ := bind_ok.mp h
  cases h
  obtain ⟨hw₁,-⟩ := mutexDownFor_writes hs.guarded le_rfl (by decide) (used_of_pos ht _) hdown
  have hsound₁ := hw₁.toPasses.sound hs.sound
  have hg₁ := hw₁.toPasses.guarded hs.guarded
  obtain ⟨hw₂,hcases⟩ := releaseMutexBody_writes ht (fun hi => hsound₁ m hi) hbody
  have hadmin : s₂.kernel.mutexes adminMutex = s₁.kernel.mutexes adminMutex := by
    by_cases hm : adminMutex = m
    · subst hm
      obtain ⟨-,hsame⟩ | ⟨-,hc,-⟩ := hcases
      · exact hsame
      · exact absurd hc (hg₁.creator_ne le_rfl (by decide) ht)
    · exact hw₂.mutexes _ hm
  obtain ⟨hw₃,-⟩ := mutexUp_writes hup
  have hpass := (hw₁.toPasses.trans hw₂.toPasses).trans hw₃.toPasses
  have hgate := bracket_survives hP hs.toOrdered le_rfl (by decide) ht hs.gate hdown
    (hw₂.toPasses.guarded hg₁) hadmin hup
  refine ⟨hs.passes hpass hgate,hpass,fun j hj hjm => ?_,?_,fun hm hx => ?_,fun hi hc => ?_⟩
  · rw [hw₃.mutexes j hj,hw₂.mutexes j hjm,hw₁.mutexes j hj]
  · rw [hw₃.semaphores,hw₂.semaphores,hw₁.semaphores]
  · obtain ⟨-,hsame⟩ | ⟨hi,hc,-⟩ := hcases
    · rw [hw₃.mutexes m hm,hsame,hw₁.mutexes m hm]
    · rw [hw₁.mutexes m hm] at hc
      exact absurd ⟨hi,hc⟩ hx
  · have hm : m ≠ adminMutex := by
      rintro rfl
      exact hs.creator_ne ht le_rfl (by decide) hc
    have hc₁ : (s₁.kernel.mutexes m).creator = t := by rw [hw₁.mutexes m hm,hc]
    obtain ⟨hx,-⟩ | ⟨-,-,hr⟩ := hcases
    · refine absurd ⟨⟨hi.1,hi.2,?_⟩,hc₁⟩ hx
      rw [hc₁]
      exact used_of_pos ht t.thread
    · rw [hw₁.mutexes m hm] at hr
      rw [hw₃.mutexes m hm]
      exact hr

end Registry

end ComplexOS
