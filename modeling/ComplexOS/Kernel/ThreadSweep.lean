import ComplexOS.Kernel.SelfDeadlock
import ComplexOS.Kernel.SemaphoreRelease

/-! # The clean-up of one thread, slot by slot

`removeThreadFromMutexes` and `removeThreadFromSemaphores` once more: when exactly a round of
their loops comes back, and what is in its slot then. A mutex that the thread holds is given up
only where the number of the thread is the pid of its process.
-/
namespace ComplexOS
open Kernel Call

def Process.blocks (p : Process) (i : ℤ) : Option ℕ := (p.threads i).map Thread.memoryBase

namespace Processes
variable {ps ps' : ℤ → Option Process} {t u : ThreadId} {st : ProcessState} {base : ℕ}

def blocks (ps : ℤ → Option Process) (pid : ℤ) : Option (ℤ → Option ℕ) := (ps pid).map Process.blocks

def Live (ps : ℤ → Option Process) (t : ThreadId) (base : ℕ) : Prop :=
  ∃ b, blocks ps t.pid = some b ∧ b t.thread = some base

theorem blocks_set : blocks (setThreadState ps t st) = blocks ps := by
  have hslot : ∀ p : Process, Process.blocks { p with
      threads := Function.update p.threads t.thread
        ((p.threads t.thread).map (fun th => { th with state := st })) } = p.blocks := by
    intro p
    funext i
    simp only [Process.blocks]
    by_cases h : i = t.thread
    · rw [h,Function.update_self,Option.map_map]
      rfl
    · rw [Function.update_of_ne h]
  funext pid
  unfold blocks setThreadState
  by_cases h : pid = t.pid
  · rw [h,Function.update_self,Option.map_map]
    exact congrArg (fun f => (ps t.pid).map f) (funext hslot)
  · rw [Function.update_of_ne h]

theorem answers_iff : Answers ps t ↔ ∀ b, blocks ps t.pid = some b → 0 ≤ t.thread →
    t.thread < maxThreads → (b t.thread).isSome := by
  unfold Answers blocks
  cases ps t.pid with
  | none => simp
  | some p => simp [Process.blocks]

theorem answers_congr (h : blocks ps' = blocks ps) : Answers ps' t ↔ Answers ps t := by
  rw [answers_iff,answers_iff,h]

theorem Live.answers (h : Live ps t base) : Answers ps t := by
  obtain ⟨b,hb,hx⟩ := h
  apply answers_iff.mpr
  intro b' hb' _ _
  rw [hb] at hb'
  cases hb'
  rw [hx]
  rfl

theorem Live.isSome (h : Live ps t base) : (ps t.pid).isSome := by
  obtain ⟨b,hb,-⟩ := h
  obtain ⟨p,hp,-⟩ := Option.map_eq_some_iff.mp hb
  rw [hp]
  rfl

theorem Live.congr (h : Live ps t base) (hb : blocks ps' = blocks ps) : Live ps' t base := by
  unfold Live
  rw [hb]
  exact h

end Processes

theorem Kernel.changeThreadState_blocks {k k' : Kernel} {t : ThreadId} {st : ProcessState}
    (h : k.changeThreadState t st = some k') :
    Processes.blocks k'.processes = Processes.blocks k.processes := by
  obtain ⟨ps,hps,rfl⟩ := Option.map_eq_some_iff.mp h
  rcases Processes.changeThreadState_cases hps with rfl | rfl
  · exact Processes.blocks_set
  · rfl

theorem Kernel.changeThreadState_of_answers {k : Kernel} {t : ThreadId} {st : ProcessState}
    (h : Processes.Answers k.processes t) : ∃ k', k.changeThreadState t st = some k' := by
  have hsome : (Processes.changeThreadState k.processes t st).isSome :=
    Processes.changeThreadState_isSome.mpr h
  obtain ⟨ps,hps⟩ := Option.isSome_iff_exists.mp hsome
  exact ⟨_,Option.map_eq_some_iff.mpr ⟨ps,hps,rfl⟩⟩

def ThreadId.victim (t : ThreadId) (h : t.used) : Victim := ⟨t.pid,some t.thread,h⟩

@[simp] theorem ThreadId.victim_covers {t u : ThreadId} {h : t.used} :
    (t.victim h).Covers u ↔ u = t := Registry.covers_thread

structure BlockedList.Dropped (t : ThreadId) (l l' : BlockedList) : Prop where
  quantity : l'.blockedQuantity ≤ l.blockedQuantity
  kept : (∀ j < maxBlocked, l.blocked j ≠ t) → l' = l

/-- The sweep gives the mutex up: the pid of its holder is passed on as the holder's thread. -/
def Mutex.Up (t : ThreadId) (m : Mutex) : Prop :=
  t.thread = t.pid ∧ m.lockProcess = t ∧ m.creator.pid ≠ notUsed

inductive Mutex.Swept (t : ThreadId) (m : Mutex) : Mutex → Prop
  | released {m' : Mutex} (hc : m.creator = t) (hq : ¬ m'.list.blockedQuantity > 0) : Swept t m m'
  | up {m' : Mutex} {l : BlockedList} (hc : m.creator ≠ t) (hu : m.Up t) (hg : GivenUp m m')
    (hd : m'.list.Dropped t l) : Swept t m { m' with list := l }
  | kept {l : BlockedList} (hc : m.creator ≠ t) (hu : ¬ m.Up t) (hd : m.list.Dropped t l) :
    Swept t m { m with list := l }

namespace Kernel
variable {k k' k'' : Kernel} {i : ℤ} {t w : ThreadId} {j : ℕ} {base : ℕ}

structure Sweeps (k k' : Kernel) : Prop where
  reaches : Reaches TableStep.ByProcess k k'
  semaphores : k'.semaphores = k.semaphores
  blocks : Processes.blocks k'.processes = Processes.blocks k.processes

namespace Sweeps

theorem refl : Sweeps k k := ⟨Reaches.refl,rfl,rfl⟩

theorem trans (h : Sweeps k k') (h' : Sweeps k' k'') : Sweeps k k'' :=
  ⟨h.reaches.trans h'.reaches,h'.semaphores.trans h.semaphores,h'.blocks.trans h.blocks⟩

theorem guarded (h : Sweeps k k') (hg : k.Guarded) : k'.Guarded :=
  (h.reaches.invariant (I := fun s => s.kernel.Guarded)
    (fun _ _ _ hI hl hs => Guarded.step hI hl hs) ∅ hg).choose_spec

theorem sound (h : Sweeps k k') (hs : ∀ i, InMutexes i → (k.mutexes i).Ok) :
    ∀ i, InMutexes i → (k'.mutexes i).Ok :=
  (h.reaches.invariant (I := MutexTable.Sound)
    (fun _ _ _ hI _ hs => MutexTable.step_sound hI hs) ∅ hs).choose_spec

theorem live (h : Sweeps k k') (hl : Processes.Live k.processes t base) :
    Processes.Live k'.processes t base := hl.congr h.blocks

end Sweeps

structure Sweeping (t : ThreadId) (base : ℕ) (a : Option ThreadId) (k : Kernel) : Prop where
  guarded : k.Guarded
  sound : ∀ i, InMutexes i → (k.mutexes i).Ok
  live : Processes.Live k.processes t base
  admin : (k.mutexes adminMutex).HeldBy a

theorem Sweeping.sweeps {a a' : Option ThreadId} (h : Sweeping t base a k) (hs : Sweeps k k')
    (ha : (k'.mutexes adminMutex).HeldBy a') : Sweeping t base a' k' :=
  ⟨hs.guarded h.guarded,hs.sound h.sound,hs.live h.live,ha⟩

theorem Sweeping.update {a : Option ThreadId} {m : Mutex} (h : Sweeping t base a k)
    (hs : Sweeps k k') (hm : k'.mutexes = Function.update k.mutexes i m) (hi : i ≠ adminMutex) :
    Sweeping t base a k' := by
  apply h.sweeps hs
  rw [hm,Function.update_of_ne hi.symm]
  exact h.admin

def sweeper (t : ThreadId) : Option ThreadId := if t.thread = t.pid then none else some t

def Apart (i : ℤ) (k k' : Kernel) : Prop := ∀ j, j ≠ i → j ≠ adminMutex → k'.mutexes j = k.mutexes j

theorem Apart.refl : Apart i k k := fun _ _ _ => rfl

theorem Apart.trans (h : Apart i k k') (h' : Apart i k' k'') : Apart i k k'' :=
  fun j hj ha => (h' j hj ha).trans (h j hj ha)

theorem Apart.update {m : Mutex} (h : k'.mutexes = Function.update k.mutexes i m) : Apart i k k' :=
  fun j hj _ => by rw [h,Function.update_of_ne hj]

/-- No NULL pointer is in the way of `mutexUp` by the holder. -/
theorem mutexUp_isSome (hc : (k.mutexes i).list.Counted) (hv : k.isValidMutex i)
    (hl : (k.mutexes i).lockProcess = t) : (k.mutexUp i t).isSome ↔
      ∀ w ∈ (k.mutexes i).list.waiters.head?, Processes.Answers k.processes w := by
  rw [mutexUp,if_pos ⟨hv,hl⟩,Option.isSome_map]
  cases hp : (k.mutexes i).list.pop with
  | none =>
    rw [hc.waiters_nil.mpr (hc.pop_none.mp hp)]
    simp [unlockProcess,hp]
  | some x =>
    obtain ⟨w,l⟩ := x
    rw [BlockedList.waiters_pop hp]
    simp only [unlockProcess,hp,changeThreadState,Option.isSome_map,List.head?_cons,
      Option.mem_some_iff,forall_eq']
    exact Processes.changeThreadState_isSome

theorem unlockProcess_blocks {b : Bool} (h : k.unlockProcess i = some (b,k')) :
    Processes.blocks k'.processes = Processes.blocks k.processes := by
  simp only [unlockProcess] at h
  split at h
  · cases h
    rfl
  · obtain ⟨k₁,hk,he⟩ := Option.map_eq_some_iff.mp h
    obtain ⟨-,rfl⟩ := Prod.mk.inj he
    exact (changeThreadState_blocks hk :
      Processes.blocks k₁.processes = Processes.blocks (k.setMutex i _).processes)

theorem unlockAll_blocks {n : ℕ} (h : unlockAll i n k = some k') :
    Processes.blocks k'.processes = Processes.blocks k.processes := by
  induction n generalizing k with
  | zero =>
    unfold unlockAll at h
    split at h
    · cases h
    · cases h
      rfl
  | succ n ih =>
    unfold unlockAll at h
    split at h
    · obtain ⟨⟨b,k₁⟩,hk,h⟩ := Option.bind_eq_some_iff.mp h
      exact (ih h).trans (unlockProcess_blocks hk)
    · cases h
      rfl

theorem releaseMutexBody_blocks {b : Bool} (h : k.releaseMutexBody i t = some (b,k')) :
    Processes.blocks k'.processes = Processes.blocks k.processes := by
  unfold releaseMutexBody at h
  split at h
  · obtain ⟨k₁,hk,he⟩ := Option.map_eq_some_iff.mp h
    cases he
    exact (unlockAll_blocks hk :
      Processes.blocks k'.processes = Processes.blocks (k.disownMutex i).processes)
  · cases h
    rfl

theorem mutexUp_sweeps (h : k.mutexUp i t = some k') : Sweeps k k' := by
  refine ⟨Reaches.mutexUp trivial h,mutexUp_semaphores h,?_⟩
  rw [mutexUp] at h
  split at h
  · obtain ⟨⟨b,k₁⟩,hk,rfl⟩ := Option.map_eq_some_iff.mp h
    have hblocks := unlockProcess_blocks hk
    cases b <;> exact hblocks
  · cases h
    rfl

def Passable (k : Kernel) (t : ThreadId) (i : ℤ) : Prop :=
  ((k.mutexes i).creator = t → t.thread = t.pid ∧
    ∀ w ∈ (k.mutexes i).list.waiters, Processes.Answers k.processes w) ∧
  ((k.mutexes i).creator ≠ t → (k.mutexes i).Up t →
    ∀ w ∈ (k.mutexes i).list.waiters.head?, Processes.Answers k.processes w)

theorem Passable.congr (h : k.Passable t i) (hm : k'.mutexes i = k.mutexes i)
    (hb : Processes.blocks k'.processes = Processes.blocks k.processes) : k'.Passable t i := by
  unfold Passable
  rw [hm]
  exact ⟨fun hc => ⟨(h.1 hc).1,fun w hw => (Processes.answers_congr hb).mpr ((h.1 hc).2 w hw)⟩,
    fun hc hu w hw => (Processes.answers_congr hb).mpr (h.2 hc hu w hw)⟩

end Kernel

namespace Registry
variable {s : Registry} {k : Kernel} {i : ℤ} {t : ThreadId} {a : Option ThreadId} {base : ℕ}
  {h : t.used}

/-! ### A round of the loop over the mutexes -/

/-- The thread's entries go, one after the other. -/
theorem removeBlocked_loop (hl : Processes.Live k.processes t base) (hi : InMutexes i) {js : List ℕ}
    (hjs : ∀ j ∈ js, j < maxBlocked) : ∃ k', js.forM (removeBlockedFromMutex (t.victim h) i)
      { s with kernel := k } = .ok ((),{ s with kernel := k' }) ∧ Sweeps k k' ∧
      ∃ l, k'.mutexes = Function.update k.mutexes i { k.mutexes i with list := l } ∧
        l.blockedQuantity ≤ (k.mutexes i).list.blockedQuantity ∧
        ((∀ j ∈ js, (k.mutexes i).list.blocked j ≠ t) → l = (k.mutexes i).list) := by
  induction js generalizing k with
  | nil => exact ⟨k,rfl,Sweeps.refl,_,(Function.update_eq_self _ _).symm,le_rfl,fun _ => rfl⟩
  | cons j js ih =>
    have hj := hjs j List.mem_cons_self
    have hjs' : ∀ j ∈ js, j < maxBlocked := fun j hx => hjs j (List.mem_cons_of_mem _ hx)
    by_cases hb : (k.mutexes i).list.blocked j = t
    · obtain ⟨k₁,hk₁⟩ : ∃ k₁, (k.setMutex i { k.mutexes i with
          list := (k.mutexes i).list.remove j }).changeThreadState t .ready = some k₁ :=
        changeThreadState_of_answers (k := k.setMutex i _) hl.answers
      have hpiece : k.removeBlockedFromMutex (t.victim h) i j = some k₁ := by
        simp only [Kernel.removeBlockedFromMutex]
        rw [if_pos (ThreadId.victim_covers.mpr hb),hb]
        exact hk₁
      have hm : k₁.mutexes = Function.update k.mutexes i { k.mutexes i with
          list := (k.mutexes i).list.remove j } := (changeThreadState_table hk₁).1
      have hself : k₁.mutexes i = { k.mutexes i with list := (k.mutexes i).list.remove j } := by
        rw [hm,Function.update_self]
      have hblocks : Processes.blocks k₁.processes = Processes.blocks (k.setMutex i _).processes :=
        changeThreadState_blocks hk₁
      have hstep : Sweeps k k₁ := by
        refine ⟨Reaches.step (l := .removeBlocked (t.victim h) i j) trivial (fun live => ⟨live,?_⟩),
          (changeThreadState_table hk₁).2.semaphores,hblocks⟩
        simp only [MutexTable.step,if_pos (And.intro hi hj),hpiece,Option.map_some]
      obtain ⟨k',hk',hs,l,hm',hq,-⟩ := ih (hstep.live hl) hjs'
      refine ⟨k',(bind_of_ok (a := ()) (piece_ok.mpr ⟨k₁,hpiece,rfl⟩)).trans hk',hstep.trans hs,l,?_,?_,fun hx => ?_⟩
      · rw [hm',hself,hm,Function.update_idem]
      · rw [hself] at hq
        have hlt : l.blockedQuantity ≤ (k.mutexes i).list.blockedQuantity-1 := hq
        omega
      · exact absurd hb (hx j List.mem_cons_self)
    · have hpiece : k.removeBlockedFromMutex (t.victim h) i j = some k := by
        simp only [Kernel.removeBlockedFromMutex]
        exact if_neg (fun hx => hb (ThreadId.victim_covers.mp hx))
      obtain ⟨k',hk',hs,l,hm,hq,hkeep⟩ := ih hl hjs'
      exact ⟨k',(bind_of_ok (a := ()) (piece_ok.mpr ⟨k,hpiece,rfl⟩)).trans hk',hs,l,hm,hq,
        fun hx => hkeep (fun j hj => hx j (List.mem_cons_of_mem _ hj))⟩

theorem removeBlocked_range (hl : Processes.Live k.processes t base) (hi : InMutexes i) : ∃ k' l,
    (List.range maxBlocked).forM (removeBlockedFromMutex (t.victim h) i) { s with kernel := k } =
      .ok ((),{ s with kernel := k' }) ∧ Sweeps k k' ∧
      k'.mutexes = Function.update k.mutexes i { k.mutexes i with list := l } ∧
      (k.mutexes i).list.Dropped t l := by
  obtain ⟨k',hk',hs,l,hm,hq,hkeep⟩ := removeBlocked_loop (s := s) (h := h) hl hi
    (fun j hj => List.mem_range.mp hj)
  exact ⟨k',l,hk',hs,hm,hq,fun hx => hkeep (fun j hj => hx j (List.mem_range.mp hj))⟩

theorem upHeldMutex_eq : upHeldMutex (t.victim h) i { s with kernel := k } =
    if (k.mutexes i).lockProcess = t then mutexUp i ⟨t.pid,t.pid⟩ { s with kernel := k }
    else .ok ((),{ s with kernel := k }) := by
  unfold upHeldMutex
  rw [get_bind]
  by_cases hl : (k.mutexes i).lockProcess = t
  · rw [if_pos (ThreadId.victim_covers.mpr hl),if_pos hl]
    simp only [hl]
    rfl
  · rw [if_neg (fun hx => hl (ThreadId.victim_covers.mp hx)),if_neg hl]
    rfl

/-- In the name of its pid the thread gives up what it holds as the thread of that number. -/
theorem up_iff (hi : InMutexes i) : (k.mutexes i).Up t ↔ (k.mutexes i).lockProcess = t ∧
    k.isValidMutex i ∧ (k.mutexes i).lockProcess = ⟨t.pid,t.pid⟩ := by
  constructor
  · rintro ⟨ht,hl,hc⟩
    refine ⟨hl,⟨hi.1,hi.2,hc⟩,?_⟩
    rw [hl]
    cases t
    simp only at ht
    rw [ht]
  · rintro ⟨hl,hv,hx⟩
    rw [hl] at hx
    exact ⟨congrArg ThreadId.thread hx,hl,hv.2.2⟩

theorem upHeldMutex_ok (hi : InMutexes i) (hc : (k.mutexes i).list.Counted)
    (hp : (k.mutexes i).Up t → ∀ w ∈ (k.mutexes i).list.waiters.head?,
      Processes.Answers k.processes w) :
    ∃ k', upHeldMutex (t.victim h) i { s with kernel := k } = .ok ((),{ s with kernel := k' }) ∧
      Sweeps k k' ∧ ((¬ (k.mutexes i).Up t ∧ k' = k) ∨ ((k.mutexes i).Up t ∧
        ∃ m, GivenUp (k.mutexes i) m ∧ k'.mutexes = Function.update k.mutexes i m)) := by
  rw [upHeldMutex_eq]
  by_cases hu : (k.mutexes i).Up t
  · obtain ⟨hl,hv,hx⟩ := (up_iff hi).mp hu
    obtain ⟨k',hk⟩ := Option.isSome_iff_exists.mp ((mutexUp_isSome hc hv hx).mpr (hp hu))
    rw [if_pos hl]
    refine ⟨k',mutexUp_ok.mpr ⟨k',hk,rfl⟩,mutexUp_sweeps hk,Or.inr ⟨hu,?_⟩⟩
    obtain ⟨hn,-⟩ | ⟨-,-,-,hm⟩ := mutexUp_cases hk
    · exact absurd ⟨hv,hx⟩ hn
    · exact hm
  · refine ⟨k,?_,Sweeps.refl,Or.inl ⟨hu,rfl⟩⟩
    split
    · rename_i hl
      exact mutexUp_ok.mpr ⟨k,mutexUp_ignored (fun hx => hu ((up_iff hi).mpr ⟨hl,hx⟩)),rfl⟩
    · rfl

theorem upHeldMutex_fails (hi : InMutexes i) (hc : (k.mutexes i).list.Counted)
    (hu : (k.mutexes i).Up t) (hp : ¬ ∀ w ∈ (k.mutexes i).list.waiters.head?,
      Processes.Answers k.processes w) :
    upHeldMutex (t.victim h) i { s with kernel := k } = .error .fails := by
  obtain ⟨hl,hv,hx⟩ := (up_iff hi).mp hu
  rw [upHeldMutex_eq,if_pos hl]
  apply piece_fails
  exact Option.not_isSome_iff_eq_none.mp (fun hs => hp ((mutexUp_isSome hc hv hx).mp hs))

theorem releaseOwnedMutex_eq : releaseOwnedMutex (t.victim h) t i { s with kernel := k } =
    if (k.mutexes i).creator = t then
      (do let _ ← releaseMutex t.pid i t.thread : KernelCall Unit) { s with kernel := k }
    else .ok ((),{ s with kernel := k }) := by
  unfold releaseOwnedMutex
  rw [get_bind]
  by_cases hc : (k.mutexes i).creator = t
  · rw [if_pos (ThreadId.victim_covers.mpr hc),if_pos hc]
  · rw [if_neg (fun hx => hc (ThreadId.victim_covers.mp hx)),if_neg hc]
    rfl

/-- A thread whose number is the pid of its process has opened `adminMutex` already. -/
theorem releaseOwnedMutex_passes (hk : Sweeping t base (sweeper t) k) (hp : 0 < t.pid)
    (hi : InMutexes i) (hpass : k.Passable t i) : ∃ k',
    releaseOwnedMutex (t.victim h) t i { s with kernel := k } = .ok ((),{ s with kernel := k' }) ∧
      Sweeps k k' ∧ Sweeping t base (sweeper t) k' ∧ Apart i k k' ∧
      (((k.mutexes i).creator ≠ t ∧ k' = k) ∨ ((k.mutexes i).creator = t ∧
        (k'.mutexes i).creator.pid = notUsed ∧ ¬ (k'.mutexes i).list.blockedQuantity > 0)) := by
  rw [releaseOwnedMutex_eq]
  by_cases hc : (k.mutexes i).creator = t
  · obtain ⟨ht,hans⟩ := hpass.1 hc
    have hopen : (k.mutexes adminMutex).HeldBy none := by
      have ha := hk.admin
      unfold sweeper at ha
      rwa [if_pos ht] at ha
    have hcount := (hk.sound i hi).counted
    have hvalid : k.isValidMutex i := ⟨hi.1,hi.2,hc ▸ h⟩
    obtain ⟨⟨b,k₁⟩,hb⟩ := Option.isSome_iff_exists.mp
      ((Kernel.releaseMutexBody_isSome (t := t) (fun _ => hcount)).mpr (fun _ _ => hans))
    have hcall : releaseMutex t.pid i t.thread { s with kernel := k } = _ :=
      releaseMutex_guarded hk.guarded (by rw [hopen.2]; decide) hopen.pop hp hb
    have hne : i ≠ adminMutex := fun he =>
      hk.guarded.creator_ne (by decide) (by decide) hp (he ▸ hc)
    have hself : (k₁.lockSlot adminMutex unlocked t).mutexes i = k₁.mutexes i := lockSlot_of_ne hne
    have hadmin : k₁.mutexes adminMutex = k.mutexes adminMutex :=
      releaseMutexBody_other hb hne.symm
    have hreach : Reaches (TableStep.By t.pid (fun _ => True)) k
        (k₁.lockSlot adminMutex unlocked t) := releaseMutex_reaches trivial h hcall
    have hblocks : Processes.blocks k₁.processes = Processes.blocks k.processes :=
      releaseMutexBody_blocks hb
    have hsems : k₁.semaphores = k.semaphores := releaseMutexBody_semaphores hb
    have hsweeps : Sweeps k (k₁.lockSlot adminMutex unlocked t) :=
      ⟨hreach.mono (fun _ hl => TableStep.By.byProcess hl hp),hsems,hblocks⟩
    have ha : ((k₁.lockSlot adminMutex unlocked t).mutexes adminMutex).HeldBy (sweeper t) := by
      unfold sweeper
      rw [if_pos ht,lockSlot_self,hadmin]
      exact ⟨hopen.1,rfl⟩
    rw [if_pos hc]
    refine ⟨_,bind_of_ok hcall,hsweeps,hk.sweeps hsweeps ha,fun j hj hja => ?_,Or.inr ⟨hc,?_⟩⟩
    · exact (lockSlot_of_ne hja).trans (releaseMutexBody_other hb hj)
    · obtain ⟨-,hx,-⟩ | ⟨-,-,-,-,m,hm,hm₁,-,-,hq,-⟩ := releaseMutexBody_cases hb
      · exact absurd ⟨hvalid,hc⟩ hx
      · rw [hself,hm,Function.update_self]
        exact ⟨hm₁,hq⟩
  · rw [if_neg hc]
    exact ⟨k,rfl,Sweeps.refl,hk,Apart.refl,Or.inl ⟨hc,rfl⟩⟩

theorem releaseOwnedMutex_fails (hk : Sweeping t base (sweeper t) k) (hp : 0 < t.pid)
    (hi : InMutexes i) (hc : (k.mutexes i).creator = t)
    (hx : ¬ (t.thread = t.pid ∧ ∀ w ∈ (k.mutexes i).list.waiters, Processes.Answers k.processes w)) :
    ∃ e, releaseOwnedMutex (t.victim h) t i { s with kernel := k } = .error e := by
  rw [releaseOwnedMutex_eq,if_pos hc]
  have ha := hk.admin
  unfold sweeper at ha
  by_cases ht : t.thread = t.pid
  · rw [if_pos ht] at ha
    have hbody : k.releaseMutexBody i t = none := by
      apply Option.not_isSome_iff_eq_none.mp
      intro hs
      have hvalid : k.isValidMutex i := ⟨hi.1,hi.2,hc ▸ h⟩
      have hcount := (hk.sound i hi).counted
      exact hx ⟨ht,(Kernel.releaseMutexBody_isSome (fun _ => hcount)).mp hs hvalid hc⟩
    have hcall : releaseMutex t.pid i t.thread { s with kernel := k } = _ :=
      releaseMutex_fails hk.guarded (by rw [ha.2]; decide) hp hbody
    exact ⟨_,bind_of_error hcall⟩
  · rw [if_neg ht] at ha
    have hcall : releaseMutex t.pid i t.thread { s with kernel := k } = _ :=
      releaseMutex_waits hk.guarded ha.2.1
    exact ⟨_,bind_of_error hcall⟩

/-- A round comes back and writes to its slot only. -/
theorem sweepMutex_passes {i : ℕ} (hk : Sweeping t base (sweeper t) k) (hp : 0 < t.pid)
    (hi : InMutexes i) (h0 : (i : ℤ) ≠ adminMutex) (hpass : k.Passable t i) : ∃ k',
    sweepMutex (t.victim h) t i { s with kernel := k } = .ok ((),{ s with kernel := k' }) ∧
      Sweeps k k' ∧ Sweeping t base (sweeper t) k' ∧ Apart i k k' ∧
      Mutex.Swept t (k.mutexes i) (k'.mutexes i) := by
  obtain ⟨k₁,h₁,hs₁,hk₁,ha₁,hc⟩ := releaseOwnedMutex_passes (s := s) (h := h) hk hp hi hpass
  have hup : (k₁.mutexes i).Up t → ∀ w ∈ (k₁.mutexes i).list.waiters.head?,
      Processes.Answers k₁.processes w := by
    intro hu
    obtain ⟨hne,rfl⟩ | ⟨-,hfree,-⟩ := hc
    · exact hpass.2 hne hu
    · exact absurd hfree hu.2.2
  obtain ⟨k₂,h₂,hs₂,hu⟩ := upHeldMutex_ok (s := s) (h := h) hi (hk₁.sound i hi).counted hup
  have hk₂ : Sweeping t base (sweeper t) k₂ := by
    obtain ⟨-,rfl⟩ | ⟨-,m,-,hm⟩ := hu
    · exact hk₁
    · exact hk₁.update hs₂ hm h0
  obtain ⟨k₃,l,h₃,hs₃,hm₃,hd⟩ := removeBlocked_range (s := s) (h := h) hk₂.live hi
  have hself : k₃.mutexes i = { k₂.mutexes i with list := l } := by
    rw [hm₃,Function.update_self]
  have ha₂ : Apart i k₁ k₂ := by
    obtain ⟨-,rfl⟩ | ⟨-,m,-,hm⟩ := hu
    · exact Apart.refl
    · exact Apart.update hm
  refine ⟨k₃,?_,(hs₁.trans hs₂).trans hs₃,hk₂.update hs₃ hm₃ h0,(ha₁.trans ha₂).trans (Apart.update hm₃),?_⟩
  · unfold sweepMutex
    rw [bind_of_ok h₁,bind_of_ok h₂]
    exact h₃
  · rw [hself]
    obtain ⟨hne,rfl⟩ | ⟨heq,hfree,hq⟩ := hc
    · obtain ⟨hnu,rfl⟩ | ⟨hu,m,hg,hm⟩ := hu
      · exact .kept hne hnu hd
      · rw [hm,Function.update_self] at hd ⊢
        exact .up hne hu hg hd
    · obtain ⟨-,rfl⟩ | ⟨hu,-⟩ := hu
      · exact .released heq (fun hx => hq (lt_of_lt_of_le hx hd.quantity))
      · exact absurd hfree hu.2.2

theorem sweepMutex_fails {i : ℕ} (hk : Sweeping t base (sweeper t) k) (hp : 0 < t.pid)
    (hi : InMutexes i) (hpass : ¬ k.Passable t i) :
    ∃ e, sweepMutex (t.victim h) t i { s with kernel := k } = .error e := by
  unfold sweepMutex
  by_cases hc : (k.mutexes i).creator = t
  · obtain ⟨e,he⟩ := releaseOwnedMutex_fails (s := s) (h := h) hk hp hi hc
      (fun hx => hpass ⟨fun _ => hx,fun hne => absurd hc hne⟩)
    exact ⟨e,bind_of_error he⟩
  · have howned : releaseOwnedMutex (t.victim h) t i { s with kernel := k } =
        .ok ((),{ s with kernel := k }) := by
      rw [releaseOwnedMutex_eq,if_neg hc]
    have hu : (k.mutexes i).Up t ∧ ¬ ∀ w ∈ (k.mutexes i).list.waiters.head?,
        Processes.Answers k.processes w := by
      by_contra hx
      refine hpass ⟨fun hy => absurd hy hc,fun _ hu => ?_⟩
      by_contra hy
      exact hx ⟨hu,hy⟩
    rw [bind_of_ok howned]
    exact ⟨_,bind_of_error (upHeldMutex_fails hi (hk.sound i hi).counted hu.1 hu.2)⟩

/-- The slot of `adminMutex` itself, which the clean-up has taken. -/
theorem sweepMutex_own (hk : Sweeping t base (some t) k) (hp : 0 < t.pid) : ∃ k',
    sweepMutex (t.victim h) t 0 { s with kernel := k } = .ok ((),{ s with kernel := k' }) ∧
      Sweeps k k' ∧ Sweeping t base (sweeper t) k' ∧ Apart adminMutex k k' := by
  have hi : InMutexes adminMutex := by decide
  have hne := hk.guarded.creator_ne (i := adminMutex) (by decide) (by decide) hp
  have howned : releaseOwnedMutex (t.victim h) t adminMutex { s with kernel := k } =
      .ok ((),{ s with kernel := k }) := by
    rw [releaseOwnedMutex_eq,if_neg hne]
  have hcount := (hk.sound adminMutex hi).counted
  have hnil : (k.mutexes adminMutex).list.waiters = [] := by
    apply hcount.waiters_nil.mpr
    rw [hk.admin.1.quantity]
    rfl
  obtain ⟨k₁,h₁,hs₁,hu⟩ := upHeldMutex_ok (s := s) (h := h) hi hcount
    (fun _ w hw => by rw [hnil] at hw; cases hw)
  have hheld : (k₁.mutexes adminMutex).HeldBy (sweeper t) := by
    unfold sweeper
    obtain ⟨hu,rfl⟩ | ⟨hu,m,hg,hm⟩ := hu
    · have ht : t.thread ≠ t.pid := fun ht => hu ⟨ht,hk.admin.2.2,by
        rw [hk.guarded.creator _ (by decide) (by decide)]
        decide⟩
      rw [if_neg ht]
      exact hk.admin
    · rw [if_pos hu.1,hm,Function.update_self]
      exact hk.admin.givenUp hg
  have ha₁ : Apart adminMutex k k₁ := by
    obtain ⟨-,rfl⟩ | ⟨-,m,-,hm⟩ := hu
    · exact Apart.refl
    · exact Apart.update hm
  obtain ⟨k₂,l,h₂,hs₂,hm₂,hd⟩ := removeBlocked_range (s := s) (h := h)
    (hk.sweeps hs₁ hheld).live hi
  have hl : l = (k₁.mutexes adminMutex).list := by
    refine hd.kept (fun j hj he => Finset.notMem_empty _ (hheld.1.entry j hj ?_))
    rw [he]
    exact h
  have hadmin : k₂.mutexes adminMutex = k₁.mutexes adminMutex := by
    rw [hm₂,Function.update_self,hl]
  refine ⟨k₂,?_,hs₁.trans hs₂,hk.sweeps (hs₁.trans hs₂) (by rw [hadmin]; exact hheld),
    ha₁.trans (Apart.update hm₂)⟩
  unfold sweepMutex
  rw [show ((0 : ℕ) : ℤ) = adminMutex from rfl,bind_of_ok howned,bind_of_ok h₁]
  exact h₂

/-! ### The loop over the mutexes -/

variable {js : List ℕ}

theorem sweepMutexes_pass (hk : Sweeping t base (sweeper t) k) (hp : 0 < t.pid) (hjs : js.Nodup)
    (hi : ∀ j ∈ js, InMutexes j ∧ (j : ℤ) ≠ adminMutex) (hpass : ∀ j ∈ js, k.Passable t j) : ∃ k',
    js.forM (sweepMutex (t.victim h) t) { s with kernel := k } = .ok ((),{ s with kernel := k' }) ∧
      Sweeps k k' ∧ Sweeping t base (sweeper t) k' ∧
      (∀ j ∈ js, Mutex.Swept t (k.mutexes j) (k'.mutexes j)) ∧
      ∀ i : ℤ, (∀ j ∈ js, i ≠ j) → i ≠ adminMutex → k'.mutexes i = k.mutexes i := by
  induction js generalizing k with
  | nil => exact ⟨k,rfl,Sweeps.refl,hk,fun j hj => absurd hj List.not_mem_nil,fun _ _ _ => rfl⟩
  | cons j js ih =>
    obtain ⟨hj,hjs⟩ := List.nodup_cons.mp hjs
    obtain ⟨hij,hj0⟩ := hi j List.mem_cons_self
    obtain ⟨k₁,h₁,hs₁,hk₁,ha₁,hswept⟩ := sweepMutex_passes (s := s) (h := h) hk hp hij hj0
      (hpass j List.mem_cons_self)
    have hrest : ∀ l ∈ js, k₁.mutexes l = k.mutexes l := fun l hl => by
      have hne : (l : ℤ) ≠ j := fun he => hj (Int.ofNat_inj.mp he ▸ hl)
      exact ha₁ l hne (hi l (List.mem_cons_of_mem _ hl)).2
    obtain ⟨k₂,h₂,hs₂,hk₂,hall,hother⟩ := ih hk₁ hjs (fun l hl => hi l (List.mem_cons_of_mem _ hl))
      (fun l hl => (hpass l (List.mem_cons_of_mem _ hl)).congr (hrest l hl) hs₁.blocks)
    refine ⟨k₂,(bind_of_ok h₁).trans h₂,hs₁.trans hs₂,hk₂,fun l hl => ?_,fun i hx h0 => ?_⟩
    · obtain rfl | hl := List.mem_cons.mp hl
      · rw [hother l (fun x hx he => hj (Int.ofNat_inj.mp he ▸ hx)) hj0]
        exact hswept
      · rw [← hrest l hl]
        exact hall l hl
    · rw [hother i (fun l hl => hx l (List.mem_cons_of_mem _ hl)) h0]
      exact ha₁ i (hx j List.mem_cons_self) h0

theorem sweepMutexes_fail (hk : Sweeping t base (sweeper t) k) (hp : 0 < t.pid) (hjs : js.Nodup)
    (hi : ∀ j ∈ js, InMutexes j ∧ (j : ℤ) ≠ adminMutex) (hpass : ∃ j ∈ js, ¬ k.Passable t j) :
    ∃ e, js.forM (sweepMutex (t.victim h) t) { s with kernel := k } = .error e := by
  refine forM_fails (I := fun x => ∃ k, x = { s with kernel := k } ∧ Sweeping t base (sweeper t) k)
    (P := fun j x => x.kernel.Passable t j) hjs ?_ ?_ ⟨k,rfl,hk⟩ hpass
  · rintro j hj x ⟨k,rfl,hk⟩ hx
    obtain ⟨k',h',hs',hk',ha',-⟩ := sweepMutex_passes (s := s) (h := h) hk hp (hi j hj).1 (hi j hj).2 hx
    refine ⟨_,h',⟨k',rfl,hk'⟩,fun l hl hne hy => ?_⟩
    exact hy.congr (ha' l (fun he => hne (Int.ofNat_inj.mp he)) (hi l hl).2).symm hs'.blocks.symm
  · rintro j hj x ⟨k,rfl,hk⟩ hx
    exact sweepMutex_fails hk hp (hi j hj).1 hx

/-- `adminMutex` is given up at the end, if it has not been before. -/
theorem mutexUp_admin {a : Option ThreadId} (hk : Sweeping t base a k) (ha : a = none ∨ a = some t) :
    ∃ k', mutexUp adminMutex t { s with kernel := k } = .ok ((),{ s with kernel := k' }) ∧
      Sweeps k k' ∧ Sweeping t base none k' ∧ Apart adminMutex k k' := by
  by_cases hl : (k.mutexes adminMutex).lockProcess = t
  · have hup := mutexUp_held hk.guarded (by decide) (by decide) hl hk.admin.pop
    have hopen : ((k.lockSlot adminMutex unlocked t).mutexes adminMutex).HeldBy none := by
      rw [lockSlot_self]
      exact ⟨hk.admin.1,rfl⟩
    exact ⟨_,mutexUp_ok.mpr ⟨_,hup,rfl⟩,mutexUp_sweeps hup,hk.sweeps (mutexUp_sweeps hup) hopen,
      fun j hj _ => lockSlot_of_ne hj⟩
  · obtain rfl | rfl := ha
    · exact ⟨k,mutexUp_ok.mpr ⟨k,mutexUp_ignored (fun hx => hl hx.2),rfl⟩,Sweeps.refl,hk,Apart.refl⟩
    · exact absurd hk.admin.2.2 hl

/-- `removeThreadFromMutexes` behind its `mutexDown`. -/
def sweepMutexes (v : Victim) (t : ThreadId) : KernelCall Unit := do
  (List.range maxMutexes.toNat).forM (sweepMutex v t)
  mutexUp adminMutex t

def laterMutexes : List ℕ := (List.range 127).map Nat.succ

theorem mem_laterMutexes {j : ℕ} : j ∈ laterMutexes ↔ InMutexes j ∧ (j : ℤ) ≠ adminMutex := by
  unfold laterMutexes InMutexes
  have hmax : maxMutexes = 128 := rfl
  have hadmin : adminMutex = 0 := rfl
  rw [hmax,hadmin,List.mem_map]
  constructor
  · rintro ⟨i,hi,rfl⟩
    have hlt := List.mem_range.mp hi
    omega
  · rintro ⟨⟨-,hlt⟩,hne⟩
    exact ⟨j-1,List.mem_range.mpr (by omega),by omega⟩

theorem laterMutexes_nodup : laterMutexes.Nodup :=
  List.nodup_range.map Nat.succ_injective

theorem exists_later (hi : InMutexes i) (h0 : i ≠ adminMutex) : ∃ j ∈ laterMutexes, i = j := by
  have hnat : ((i.toNat : ℕ) : ℤ) = i := Int.toNat_of_nonneg hi.1
  exact ⟨i.toNat,mem_laterMutexes.mpr (by rw [hnat]; exact ⟨hi,h0⟩),hnat.symm⟩

theorem sweepMutexes_eq {v : Victim} : sweepMutexes v t =
    (do sweepMutex v t 0; laterMutexes.forM (sweepMutex v t); mutexUp adminMutex t) := by
  have hrange : List.range maxMutexes.toNat = 0::laterMutexes := List.range_succ_eq_map
  unfold sweepMutexes
  rw [hrange]
  simp only [List.forM_eq_forM,List.forM_cons,bind_assoc]

theorem sweepMutexes_ok (hk : Sweeping t base (some t) k) (hp : 0 < t.pid)
    (hpass : ∀ i, InMutexes i → i ≠ adminMutex → k.Passable t i) : ∃ k',
    sweepMutexes (t.victim h) t { s with kernel := k } = .ok ((),{ s with kernel := k' }) ∧
      Sweeps k k' ∧ Sweeping t base none k' ∧
      ∀ i, InMutexes i → i ≠ adminMutex → Mutex.Swept t (k.mutexes i) (k'.mutexes i) := by
  obtain ⟨k₁,h₁,hs₁,hk₁,ha₁⟩ := sweepMutex_own (s := s) (h := h) hk hp
  have hsame : ∀ j ∈ laterMutexes, k₁.mutexes j = k.mutexes j := fun j hj =>
    ha₁ j (mem_laterMutexes.mp hj).2 (mem_laterMutexes.mp hj).2
  obtain ⟨k₂,h₂,hs₂,hk₂,hswept,-⟩ := sweepMutexes_pass (s := s) (h := h) hk₁ hp laterMutexes_nodup
    (fun j hj => mem_laterMutexes.mp hj) (fun j hj => (hpass j (mem_laterMutexes.mp hj).1
      (mem_laterMutexes.mp hj).2).congr (hsame j hj) hs₁.blocks)
  have hsweeper : sweeper t = none ∨ sweeper t = some t := by
    unfold sweeper
    split
    · exact Or.inl rfl
    · exact Or.inr rfl
  obtain ⟨k₃,h₃,hs₃,hk₃,ha₃⟩ := mutexUp_admin (s := s) hk₂ hsweeper
  refine ⟨k₃,?_,(hs₁.trans hs₂).trans hs₃,hk₃,fun i hi h0 => ?_⟩
  · rw [sweepMutexes_eq,bind_of_ok h₁,bind_of_ok h₂]
    exact h₃
  · obtain ⟨j,hj,rfl⟩ := exists_later hi h0
    rw [ha₃ j h0 h0,← hsame j hj]
    exact hswept j hj

theorem sweepMutexes_error (hk : Sweeping t base (some t) k) (hp : 0 < t.pid)
    (hpass : ∃ i, InMutexes i ∧ i ≠ adminMutex ∧ ¬ k.Passable t i) :
    ∃ e, sweepMutexes (t.victim h) t { s with kernel := k } = .error e := by
  obtain ⟨k₁,h₁,hs₁,hk₁,ha₁⟩ := sweepMutex_own (s := s) (h := h) hk hp
  obtain ⟨i,hi,h0,hx⟩ := hpass
  obtain ⟨j,hj,rfl⟩ := exists_later hi h0
  obtain ⟨e,he⟩ := sweepMutexes_fail (s := s) (h := h) hk₁ hp laterMutexes_nodup
    (fun j hj => mem_laterMutexes.mp hj)
    ⟨j,hj,fun hy => hx (hy.congr (ha₁ j h0 h0).symm hs₁.blocks.symm)⟩
  exact ⟨e,by rw [sweepMutexes_eq,bind_of_ok h₁,bind_of_error he]⟩

end Registry

/-! ### The loop over the semaphores -/

def BlockedList.entries (l : BlockedList) (t : ThreadId) (js : List ℕ) : ℕ :=
  js.countP (fun j => l.blocked j = t)

theorem BlockedList.entries_own {l : BlockedList} {t : ThreadId} {j : ℕ} {js : List ℕ}
    (h : l.blocked j = t) : l.entries t (j::js) = l.entries t js+1 := by
  unfold entries
  rw [List.countP_cons]
  simp [h]

theorem BlockedList.entries_other {l : BlockedList} {t : ThreadId} {j : ℕ} {js : List ℕ}
    (h : l.blocked j ≠ t) : l.entries t (j::js) = l.entries t js := by
  unfold entries
  rw [List.countP_cons]
  simp [h]

theorem BlockedList.entries_remove {l : BlockedList} {t : ThreadId} {j : ℕ} {js : List ℕ}
    (h : j ∉ js) : (l.remove j).entries t js = l.entries t js := by
  unfold entries
  apply List.countP_congr
  intro i hi
  have hne : i ≠ j := fun he => h (he ▸ hi)
  simp only [remove,Function.update_of_ne hne]

namespace Kernel
variable {k k' k'' : Kernel} {i : ℤ} {t : ThreadId} {base : ℕ}

structure Aside (k k' : Kernel) : Prop where
  mutexes : k'.mutexes = k.mutexes
  firstAvailableMutex : k'.firstAvailableMutex = k.firstAvailableMutex
  blocks : Processes.blocks k'.processes = Processes.blocks k.processes

namespace Aside

theorem refl : Aside k k := ⟨rfl,rfl,rfl⟩

theorem trans (h : Aside k k') (h' : Aside k' k'') : Aside k k'' :=
  ⟨h'.mutexes.trans h.mutexes,h'.firstAvailableMutex.trans h.firstAvailableMutex,
    h'.blocks.trans h.blocks⟩

theorem sweeping {a : Option ThreadId} (h : Aside k k') (hk : Sweeping t base a k) :
    Sweeping t base a k' := by
  refine ⟨hk.guarded.congr (fun i _ _ => by rw [h.mutexes]) h.firstAvailableMutex,fun i hi => ?_,
    hk.live.congr h.blocks,?_⟩
  · rw [h.mutexes]
    exact hk.sound i hi
  · rw [h.mutexes]
    exact hk.admin

end Aside

/-- The semaphore is not the thread's, and every entry of the thread gives back its permit. -/
def Settled (k : Kernel) (t : ThreadId) (i : ℤ) : Prop :=
  (k.semaphores i).creator ≠ t ∧ (0 < (k.semaphores i).list.entries t (List.range maxBlocked) →
    (k.semaphores i).value+(k.semaphores i).list.entries t (List.range maxBlocked) ≤ maxInt)

theorem Settled.congr (h : k.Settled t i) (hs : k'.semaphores i = k.semaphores i) : k'.Settled t i := by
  unfold Settled
  rw [hs]
  exact h

def Strange (k : Kernel) (t : ThreadId) (i : ℤ) : Prop :=
  ∀ j < maxBlocked, (k.semaphores i).list.blocked j ≠ t

end Kernel

namespace Registry
variable {s : Registry} {k : Kernel} {i : ℤ} {t : ThreadId} {base j : ℕ} {js : List ℕ} {h : t.used}

theorem removeEntry_own (hl : Processes.Live k.processes t base)
    (hb : (k.semaphores i).list.blocked j = t) (hv : (k.semaphores i).value < maxInt) : ∃ k',
    removeBlockedFromSemaphore (t.victim h) i j { s with kernel := k } =
      .ok ((),{ s with kernel := k' }) ∧ Aside k k' ∧
      k'.semaphores = Function.update k.semaphores i { k.semaphores i with
        list := (k.semaphores i).list.remove j
        value := (k.semaphores i).value+1 } := by
  obtain ⟨k₁,hk₁⟩ : ∃ k₁, (k.setSemaphore i { k.semaphores i with
      list := (k.semaphores i).list.remove j
      value := (k.semaphores i).value+1 }).changeThreadState t .ready = some k₁ :=
    changeThreadState_of_answers (k := k.setSemaphore i _) hl.answers
  have hpiece : k.removeBlockedFromSemaphore (t.victim h) i j = some k₁ := by
    simp only [Kernel.removeBlockedFromSemaphore]
    rw [if_pos (ThreadId.victim_covers.mpr hb),hb]
    simp only [increment,if_pos hv,Option.bind_some]
    exact hk₁
  obtain ⟨hm,hr⟩ := changeThreadState_table hk₁
  have hblocks : Processes.blocks k₁.processes = Processes.blocks (k.setSemaphore i _).processes :=
    changeThreadState_blocks hk₁
  exact ⟨k₁,piece_ok.mpr ⟨k₁,hpiece,rfl⟩,⟨hm,hr.firstAvailableMutex,hblocks⟩,hr.semaphores⟩

theorem removeEntry_full (hb : (k.semaphores i).list.blocked j = t)
    (hv : ¬ (k.semaphores i).value < maxInt) :
    removeBlockedFromSemaphore (t.victim h) i j { s with kernel := k } = .error .fails := by
  apply piece_fails
  simp only [Kernel.removeBlockedFromSemaphore]
  rw [if_pos (ThreadId.victim_covers.mpr hb)]
  simp only [increment,if_neg hv,Option.bind_none]

theorem removeEntry_other (hb : (k.semaphores i).list.blocked j ≠ t) :
    removeBlockedFromSemaphore (t.victim h) i j { s with kernel := k } =
      .ok ((),{ s with kernel := k }) := by
  apply piece_ok.mpr
  refine ⟨k,?_,rfl⟩
  simp only [Kernel.removeBlockedFromSemaphore]
  exact if_neg (fun hx => hb (ThreadId.victim_covers.mp hx))

theorem removeEntries_ok (hl : Processes.Live k.processes t base) (hjs : js.Nodup)
    (hv : 0 < (k.semaphores i).list.entries t js →
      (k.semaphores i).value+(k.semaphores i).list.entries t js ≤ maxInt) : ∃ k',
    js.forM (removeBlockedFromSemaphore (t.victim h) i) { s with kernel := k } =
      .ok ((),{ s with kernel := k' }) ∧ Aside k k' ∧
      (∃ x, k'.semaphores = Function.update k.semaphores i x) ∧
      ((∀ j ∈ js, (k.semaphores i).list.blocked j ≠ t) → k' = k) := by
  induction js generalizing k with
  | nil => exact ⟨k,rfl,Aside.refl,⟨_,(Function.update_eq_self _ _).symm⟩,fun _ => rfl⟩
  | cons j js ih =>
    obtain ⟨hj,hjs⟩ := List.nodup_cons.mp hjs
    by_cases hb : (k.semaphores i).list.blocked j = t
    · rw [BlockedList.entries_own hb] at hv
      have hlt := hv (Nat.succ_pos _)
      push_cast at hlt
      obtain ⟨k₁,h₁,ha₁,hs₁⟩ := removeEntry_own (s := s) (h := h) hl hb (by omega)
      have hself := (congrFun hs₁ i).trans (Function.update_self _ _ _)
      obtain ⟨k₂,h₂,ha₂,⟨x,hs₂⟩,-⟩ := ih (hl.congr ha₁.blocks) hjs (by
        rw [hself,BlockedList.entries_remove hj]
        intro _
        show (k.semaphores i).value+1+_ ≤ maxInt
        omega)
      refine ⟨k₂,(bind_of_ok h₁).trans h₂,ha₁.trans ha₂,⟨x,?_⟩,fun hx => ?_⟩
      · rw [hs₂,hs₁,Function.update_idem]
      · exact absurd hb (hx j List.mem_cons_self)
    · rw [BlockedList.entries_other hb] at hv
      obtain ⟨k₁,h₁,ha₁,hs₁,hkeep⟩ := ih hl hjs hv
      exact ⟨k₁,(bind_of_ok (removeEntry_other hb)).trans h₁,ha₁,hs₁,
        fun hx => hkeep (fun l hl => hx l (List.mem_cons_of_mem _ hl))⟩

theorem removeEntries_fails (hl : Processes.Live k.processes t base) (hjs : js.Nodup)
    (hpos : 0 < (k.semaphores i).list.entries t js)
    (hv : maxInt < (k.semaphores i).value+(k.semaphores i).list.entries t js) :
    js.forM (removeBlockedFromSemaphore (t.victim h) i) { s with kernel := k } = .error .fails := by
  induction js generalizing k with
  | nil => exact absurd hpos (lt_irrefl 0)
  | cons j js ih =>
    obtain ⟨hj,hjs⟩ := List.nodup_cons.mp hjs
    by_cases hb : (k.semaphores i).list.blocked j = t
    · rw [BlockedList.entries_own hb] at hv
      push_cast at hv
      by_cases hlt : (k.semaphores i).value < maxInt
      · obtain ⟨k₁,h₁,ha₁,hs₁⟩ := removeEntry_own (s := s) (h := h) hl hb hlt
        have hself := (congrFun hs₁ i).trans (Function.update_self _ _ _)
        refine (bind_of_ok h₁).trans (ih (hl.congr ha₁.blocks) hjs ?_ ?_)
        · rw [hself,BlockedList.entries_remove hj]
          omega
        · rw [hself,BlockedList.entries_remove hj]
          show maxInt < (k.semaphores i).value+1+_
          omega
      · exact bind_of_error (removeEntry_full hb hlt)
    · rw [BlockedList.entries_other hb] at hpos hv
      exact (bind_of_ok (removeEntry_other hb)).trans (ih hl hjs hpos hv)

theorem releaseOwnedSemaphore_eq : releaseOwnedSemaphore (t.victim h) t i { s with kernel := k } =
    if (k.semaphores i).creator = t then
      (do let _ ← releaseSemaphore t.pid i t.thread : KernelCall Unit) { s with kernel := k }
    else .ok ((),{ s with kernel := k }) := by
  unfold releaseOwnedSemaphore
  rw [get_bind]
  by_cases hc : (k.semaphores i).creator = t
  · rw [if_pos (ThreadId.victim_covers.mpr hc),if_pos hc]
  · rw [if_neg (fun hx => hc (ThreadId.victim_covers.mp hx)),if_neg hc]
    rfl

theorem sweepSemaphore_passes {i : ℕ} (hl : Processes.Live k.processes t base)
    (hset : k.Settled t i) : ∃ k',
    sweepSemaphore (t.victim h) t i { s with kernel := k } = .ok ((),{ s with kernel := k' }) ∧
      Aside k k' ∧ (∃ x, k'.semaphores = Function.update k.semaphores i x) ∧
      (k.Strange t i → k' = k) := by
  obtain ⟨k',hk',ha,hs,hkeep⟩ := removeEntries_ok (s := s) (h := h) hl List.nodup_range hset.2
  refine ⟨k',?_,ha,hs,fun hx => hkeep (fun j hj => hx j (List.mem_range.mp hj))⟩
  have howned : releaseOwnedSemaphore (t.victim h) t i { s with kernel := k } = _ :=
    releaseOwnedSemaphore_eq.trans (if_neg hset.1)
  unfold sweepSemaphore
  rw [bind_of_ok howned]
  exact hk'

/-- With the lock of the table taken by the thread itself. -/
theorem sweepSemaphore_fails {i : ℕ} (hl : Processes.Live k.processes t base) (hg : k.Guarded)
    (hs : s.semaphoreMutex = 1) (h1 : (k.mutexes 1).value = locked) (hset : ¬ k.Settled t i) :
    ∃ e, sweepSemaphore (t.victim h) t i { s with kernel := k } = .error e := by
  unfold sweepSemaphore
  by_cases hc : (k.semaphores i).creator = t
  · obtain ⟨e,he⟩ : ∃ e, releaseSemaphore t.pid i t.thread { s with kernel := k } = .error e :=
      releaseSemaphore_waits (s := { s with kernel := k }) hg hs (by rw [hs]; exact h1)
    have howned : releaseOwnedSemaphore (t.victim h) t i { s with kernel := k } = .error e := by
      rw [releaseOwnedSemaphore_eq,if_pos hc]
      exact bind_of_error he
    exact ⟨e,bind_of_error howned⟩
  · have howned : releaseOwnedSemaphore (t.victim h) t i { s with kernel := k } = _ :=
      releaseOwnedSemaphore_eq.trans (if_neg hc)
    have hover : 0 < (k.semaphores i).list.entries t (List.range maxBlocked) ∧ maxInt <
        (k.semaphores i).value+(k.semaphores i).list.entries t (List.range maxBlocked) := by
      by_contra hx
      refine hset ⟨hc,fun hpos => ?_⟩
      by_contra hy
      exact hx ⟨hpos,not_le.mp hy⟩
    rw [bind_of_ok howned]
    exact ⟨_,removeEntries_fails hl List.nodup_range hover.1 hover.2⟩

theorem sweepSemaphores_pass (hl : Processes.Live k.processes t base) (hjs : js.Nodup)
    (hset : ∀ j ∈ js, k.Settled t j) : ∃ k',
    js.forM (sweepSemaphore (t.victim h) t) { s with kernel := k } = .ok ((),{ s with kernel := k' }) ∧
      Aside k k' ∧ ∀ i : ℤ, k.Strange t i → k'.semaphores i = k.semaphores i := by
  induction js generalizing k with
  | nil => exact ⟨k,rfl,Aside.refl,fun _ _ => rfl⟩
  | cons j js ih =>
    obtain ⟨hj,hjs⟩ := List.nodup_cons.mp hjs
    obtain ⟨k₁,h₁,ha₁,⟨x,hs₁⟩,hkeep⟩ := sweepSemaphore_passes (s := s) (h := h) hl
      (hset j List.mem_cons_self)
    have hrest : ∀ l ∈ js, k₁.semaphores l = k.semaphores l := fun l hl => by
      have hne : (l : ℤ) ≠ j := fun he => hj (Int.ofNat_inj.mp he ▸ hl)
      rw [hs₁,Function.update_of_ne hne]
    obtain ⟨k₂,h₂,ha₂,hother⟩ := ih (hl.congr ha₁.blocks) hjs
      (fun l hl => (hset l (List.mem_cons_of_mem _ hl)).congr (hrest l hl))
    refine ⟨k₂,(bind_of_ok h₁).trans h₂,ha₁.trans ha₂,fun i hi => ?_⟩
    have hsame : k₁.semaphores i = k.semaphores i := by
      by_cases he : i = j
      · subst he
        rw [hkeep hi]
      · rw [hs₁,Function.update_of_ne he]
    have hi₁ : k₁.Strange t i := by
      unfold Strange
      rw [hsame]
      exact hi
    exact (hother i hi₁).trans hsame

/-- `removeThreadFromSemaphores` behind its `mutexDown`. -/
def sweepSemaphores (v : Victim) (t : ThreadId) : KernelCall Unit := do
  let s ← get
  (List.range maxSemaphores.toNat).forM (sweepSemaphore v t)
  mutexUp s.semaphoreMutex t

theorem mem_semaphores {j : ℕ} : j ∈ List.range maxSemaphores.toNat ↔ InSemaphores j := by
  unfold InSemaphores
  have hmax : maxSemaphores = 64 := rfl
  rw [hmax,List.mem_range]
  omega

theorem sweepSemaphores_ok (hk : Sweeping t base none k) (hs : s.semaphoreMutex = 1)
    (h1 : (k.mutexes 1).HeldBy (some t)) (hset : ∀ i, InSemaphores i → k.Settled t i) : ∃ k',
    sweepSemaphores (t.victim h) t { s with kernel := k } = .ok ((),{ s with kernel := k' }) ∧
      Sweeping t base none k' ∧ (∀ i, i ≠ 1 → k'.mutexes i = k.mutexes i) ∧
      ∀ i, k.Strange t i → k'.semaphores i = k.semaphores i := by
  obtain ⟨k₁,h₁,ha₁,hother⟩ := sweepSemaphores_pass (s := s) (h := h) hk.live List.nodup_range
    (fun j hj => hset j (mem_semaphores.mp hj))
  have hk₁ := ha₁.sweeping hk
  have hheld : (k₁.mutexes 1).HeldBy (some t) := by
    rw [ha₁.mutexes]
    exact h1
  have hup := mutexUp_held hk₁.guarded (m := 1) (by decide) (by decide) hheld.2.2 hheld.pop
  refine ⟨k₁.lockSlot 1 unlocked t,?_,?_,fun i hi => ?_,hother⟩
  · unfold sweepSemaphores
    rw [get_bind,bind_of_ok h₁]
    simp only [hs]
    exact mutexUp_ok.mpr ⟨_,hup,rfl⟩
  · apply hk₁.sweeps (mutexUp_sweeps hup)
    rw [lockSlot_of_ne (by decide)]
    exact hk₁.admin
  · rw [lockSlot_of_ne hi,ha₁.mutexes]

theorem sweepSemaphores_error (hk : Sweeping t base none k) (hs : s.semaphoreMutex = 1)
    (h1 : (k.mutexes 1).value = locked) (hset : ∃ i, InSemaphores i ∧ ¬ k.Settled t i) :
    ∃ e, sweepSemaphores (t.victim h) t { s with kernel := k } = .error e := by
  obtain ⟨i,hi,hx⟩ := hset
  have hnat : ((i.toNat : ℕ) : ℤ) = i := Int.toNat_of_nonneg hi.1
  obtain ⟨e,he⟩ : ∃ e, (List.range maxSemaphores.toNat).forM (sweepSemaphore (t.victim h) t)
      { s with kernel := k } = .error e := by
    refine forM_fails (I := fun x => ∃ k, x = { s with kernel := k } ∧ Sweeping t base none k ∧
      (k.mutexes 1).value = locked) (P := fun j x => x.kernel.Settled t j) List.nodup_range ?_ ?_
      ⟨k,rfl,hk,h1⟩ ⟨i.toNat,mem_semaphores.mpr (by rw [hnat]; exact hi),by rw [hnat]; exact hx⟩
    · rintro j - x ⟨k,rfl,hk,h1⟩ hx
      obtain ⟨k',h',ha',⟨y,hs'⟩,-⟩ := sweepSemaphore_passes (s := s) (h := h) hk.live hx
      refine ⟨_,h',⟨k',rfl,ha'.sweeping hk,by rw [ha'.mutexes]; exact h1⟩,fun l _ hne hy => ?_⟩
      apply hy.congr
      show k.semaphores l = k'.semaphores l
      rw [hs',Function.update_of_ne (fun he => hne (Int.ofNat_inj.mp he))]
    · rintro j - x ⟨k,rfl,hk,h1⟩ hx
      exact sweepSemaphore_fails hk.live hk.guarded hs h1 hx
  refine ⟨e,?_⟩
  unfold sweepSemaphores
  rw [get_bind,bind_of_error he]

end Registry
end ComplexOS
