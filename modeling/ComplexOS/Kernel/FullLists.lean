import ComplexOS.Kernel.Reachable
import ComplexOS.Kernel.ThreadSweep

/-! # Waiting lists that are full

`mutexDown` and `wait` end the caller where there is no room for it. `killThread` takes the locks
of both tables for that, with `mutexDown` again.
-/
namespace ComplexOS
open Kernel Call BuddyAllocator

def BlockedList.Full (l : BlockedList) : Prop := ∀ j < maxBlocked, (l.blocked j).used

instance (l : BlockedList) : Decidable l.Full := inferInstanceAs (Decidable (∀ j < maxBlocked, _))

theorem BlockedList.add_none {l : BlockedList} {t : ThreadId} : l.add t = none ↔ l.Full := by
  unfold add nextListIndexAvailable Full
  rw [Option.map_eq_none_iff]
  constructor
  · exact fun h j hj => SlotTable.firstFree_none h hj
  · intro h
    cases hf : SlotTable.firstFree ThreadId.used maxBlocked l.blocked with
    | none => rfl
    | some j =>
      obtain ⟨hj,hu⟩ := SlotTable.firstFree_some hf
      exact absurd (h j hj) hu

theorem BlockedList.Full.quantity {l : BlockedList} (h : l.Full) (hc : l.Counted) :
    l.blockedQuantity = maxBlocked := by
  have hnone := (Option.map_eq_none_iff.mp (add_none (t := ThreadId.unused).mpr h))
  rw [hc,SlotTable.firstFree_eq_none_iff.mp hnone]

theorem Mutex.Ok.heldBy_none {m : Mutex} (h : m.Ok) (hv : m.value ≠ locked) : m.HeldBy none :=
  ⟨h.counted.holds_empty (h.idle hv),h.open_value hv⟩

theorem Mutex.Ok.locked_of_full {m : Mutex} (h : m.Ok) (hf : m.list.Full) : m.value = locked := by
  by_contra hv
  have hq := hf.quantity h.counted
  rw [h.idle hv] at hq
  exact absurd hq (by decide)

namespace Registry

/-! ### The calls -/

/-- The rest of a call comes behind a `mutexDown` that has returned. A thread that has ended never
gets there. -/
def behind (down : KernelCall DownOutcome) (mutex : ℤ) (t : ThreadId) (rest : KernelCall Unit) :
    KernelCall Unit := do
  match ← down with
  | .returned => rest
  | .queued =>
    let s ← get
    stop (.waits mutex t (s.kernel.mutexes mutex).lockProcess)
  | .full => pure ()

/-- A first thread takes its process with it, and the process that is current as well. -/
def terminateThread (t : ThreadId) : KernelCall Unit := do
  let s ← get
  match s.kernel.processes t.pid with
  | none => stop .fails
  | some process =>
    if t.thread = 0 then
      (List.range maxThreads.toNat).forM (fun i => match process.threads i with
        | none => pure ()
        | some thread => deleteThread thread)
      if h : s.kernel.current ≠ notUsed then killProcess s.kernel.current h
      else stop .fails
    else
      match process.threads t.thread with
      | none => pure ()
      | some thread =>
        deleteThread thread
        modify (fun s => { s with kernel := s.kernel.terminateThread t process })

/-- `killThread`, with `mutexDown` as an argument. -/
def killThread (down : ℤ → KernelCall DownOutcome) (t : ThreadId) (h : t.used) : KernelCall Unit := do
  let s ← get
  if (s.kernel.processes t.pid).isSome then
    behind (down adminMutex) adminMutex t (do
      sweepMutexes (t.victim h) t
      let s ← get
      behind (down s.semaphoreMutex) s.semaphoreMutex t (do
        sweepSemaphores (t.victim h) t
        terminateThread t))

/-- `mutexDown`, with what is done on a full list as an argument. -/
def downOr (kill : KernelCall Unit) (mutex : ℤ) (t : ThreadId) : KernelCall DownOutcome := do
  let s ← get
  match s.kernel.mutexDown mutex t with
  | none => stop .fails
  | some (o,k) =>
    modify (fun s => { s with kernel := k })
    if o = .full then kill
    pure o

/-- `mutexDown` with up to `n` calls of it inside one another. -/
def downKill (t : ThreadId) (h : t.used) : ℕ → ℤ → KernelCall DownOutcome
  | 0, mutex => downOr (stop .fails) mutex t
  | n+1, mutex => downOr (killThread (downKill t h n) t h) mutex t

/-- A caller that has been queued for the semaphore's mutex has not come to the semaphore yet. -/
def wait (t : ThreadId) (h : t.used) (n : ℕ) (semaphore : ℤ) : KernelCall DownOutcome := do
  let s ← get
  if s.kernel.isValidSemaphore semaphore then
    match ← downKill t h n (s.kernel.semaphores semaphore).mutex with
    | .returned =>
      let s ← get
      match s.kernel.waitBody semaphore t with
      | none => stop .fails
      | some (o,k) =>
        modify (fun s => { s with kernel := k })
        if o = .full then killThread (downKill t h n) t h
        let s ← get
        mutexUp (s.kernel.semaphores semaphore).mutex t
        pure o
    | o => pure o
  else pure .returned

end Registry

namespace Kernel
variable {k k' : Kernel} {t : ThreadId} {i m : ℤ} {base : ℕ}

theorem mutexDown_full (hv : k.isValidMutex m) (hl : (k.mutexes m).value = locked)
    (hf : (k.mutexes m).list.Full) : k.mutexDown m t = some (.full,k.testAndSetLock m) := by
  have hadd : (k.testAndSetLock m).addToBlocked m t = none := by
    unfold addToBlocked
    rw [testAndSetLock_mutexes_self]
    exact Option.map_eq_none_iff.mpr (BlockedList.add_none.mpr hf)
  rw [mutexDown,if_pos hv,if_pos hl,hadd]

structure Removable (k : Kernel) (t : ThreadId) : Prop where
  adminMutex : (k.mutexes adminMutex).value ≠ locked
  semaphoreMutex : (k.mutexes 1).value = locked →
    (k.mutexes 1).Up t ∧ (k.mutexes 1).list.waiters = []
  mutexes : ∀ i, InMutexes i → i ≠ ComplexOS.adminMutex → k.Passable t i
  semaphores : ∀ i, InSemaphores i → k.Settled t i

structure Cleaned (t : ThreadId) (k k' : Kernel) : Prop where
  gone : k'.threadState t = none
  mutexes : ∀ i, InMutexes i → i ≠ adminMutex → i ≠ 1 → Mutex.Swept t (k.mutexes i) (k'.mutexes i)
  semaphores : ∀ i, k.Strange t i → k'.semaphores i = k.semaphores i

/-- The lock of the semaphores is open behind the sweep if the thread has given it up to nobody. -/
theorem swept_open (hs : Mutex.Swept t (k.mutexes 1) (k'.mutexes 1)) (hg : k.Guarded)
    (hp : 0 < t.pid) (hok : (k.mutexes 1).Ok)
    (h1 : (k.mutexes 1).value = locked → (k.mutexes 1).Up t ∧ (k.mutexes 1).list.waiters = []) :
    (k'.mutexes 1).value ≠ locked := by
  generalize hm : k'.mutexes 1 = m at hs
  cases hs with
  | released hc => exact absurd hc (hg.creator_ne (by decide) (by decide) hp)
  | up hc hu hgiven hd =>
    have hq : (k.mutexes 1).list.blockedQuantity = 0 := by
      by_cases hl : (k.mutexes 1).value = locked
      · exact hok.counted.waiters_nil.mp (h1 hl).2
      · exact hok.idle hl
    cases hgiven with
    | free _ => exact (by decide : unlocked ≠ locked)
    | handed hpop =>
      rw [hok.counted.pop_none.mpr hq] at hpop
      cases hpop
  | kept hc hu hd => exact fun hl => hu (h1 hl).1

/-- The lock stays taken if the thread does not have it, or hands it on. -/
theorem swept_locked (hs : Mutex.Swept t (k.mutexes 1) (k'.mutexes 1)) (hg : k.Guarded)
    (hp : 0 < t.pid) (hok : (k.mutexes 1).Ok) (hl : (k.mutexes 1).value = locked)
    (h1 : ¬ ((k.mutexes 1).Up t ∧ (k.mutexes 1).list.waiters = [])) :
    (k'.mutexes 1).value = locked := by
  generalize hm : k'.mutexes 1 = m at hs
  cases hs with
  | released hc => exact absurd hc (hg.creator_ne (by decide) (by decide) hp)
  | up hc hu hgiven hd =>
    cases hgiven with
    | free hpop => exact absurd ⟨hu,hok.counted.waiters_nil.mpr (hok.counted.pop_none.mp hpop)⟩ h1
    | handed hpop => exact hl
  | kept hc hu hd => exact hl

end Kernel

namespace Registry
variable {s s' : Registry} {k : Kernel} {m : ℤ} {t : ThreadId} {h : t.used} {base n : ℕ}
  {o : DownOutcome} {kill : KernelCall Unit} {rest : KernelCall Unit} {call : KernelCall DownOutcome}

/-! ### `mutexDown` -/

theorem downOr_other (hk : s.kernel.mutexDown m t = some (o,k)) (ho : o ≠ .full) :
    downOr kill m t s = .ok (o,{ s with kernel := k }) := by
  unfold downOr
  rw [get_bind]
  simp only [hk,if_neg ho]
  rfl

theorem downOr_full (hk : s.kernel.mutexDown m t = some (.full,k)) :
    downOr kill m t s = (do kill; pure .full : KernelCall DownOutcome) { s with kernel := k } := by
  unfold downOr
  rw [get_bind]
  simp only [hk]
  rfl

theorem downKill_other (hk : s.kernel.mutexDown m t = some (o,k)) (ho : o ≠ .full) :
    downKill t h n m s = .ok (o,{ s with kernel := k }) := by
  cases n with
  | zero => exact downOr_other hk ho
  | succ n => exact downOr_other hk ho

theorem downKill_full (hk : s.kernel.mutexDown m t = some (.full,k)) :
    downKill t h (n+1) m s = (do killThread (downKill t h n) t h; pure .full :
      KernelCall DownOutcome) { s with kernel := k } := downOr_full hk

theorem behind_returned (hd : call s = .ok (.returned,s')) : behind call m t rest s = rest s' := by
  unfold behind
  rw [bind_of_ok hd]

/-- Nothing but a return leads to the rest of the call. -/
theorem behind_ok {x : Registry} (hd : behind call m t rest s = .ok ((),x)) :
    (∃ s', call s = .ok (.returned,s') ∧ rest s' = .ok ((),x)) ∨ call s = .ok (.full,x) := by
  unfold behind at hd
  obtain ⟨o,s',ho,hd⟩ := bind_ok.mp hd
  cases o with
  | returned => exact Or.inl ⟨s',ho,hd⟩
  | queued => cases hd
  | full =>
    cases hd
    exact Or.inr ho

theorem move_down (ht : t.used) (hk : s.kernel.mutexDown m t = some (o,k)) :
    s.move (.table (.mutexDown m t)) = some { s with kernel := k } := by
  have hby : TableStep.ByProcess (.mutexDown m t) := trivial
  simp only [move,if_pos hby,MutexTable.step,if_pos (Or.inl ht),hk,Option.map_some]

theorem Sane.down (hs : s.Sane) (ht : t.used) (hk : s.kernel.mutexDown m t = some (o,k)) :
    Sane { s with kernel := k } := hs.move (move_down ht hk)

/-! ### The end of the thread -/

theorem freeMemory_unowned (hpage : isAllocatedPage s.heap base = some false) :
    freeMemory base s = .ok (false,s) := by
  unfold freeMemory
  rw [get_bind,hpage]
  rfl

theorem freeMemory_owned {r : Bool} {x : Heap} {s₁ s₂ : Registry}
    (hpage : isAllocatedPage s.heap base = some true)
    (hdown : mutexDown s.buddyMutex s.kernel.caller s = .ok ((),s₁))
    (hx : BuddyAllocator.freeMemory base s₁.heap = some (r,x))
    (hup : mutexUp s.buddyMutex s.kernel.caller { s₁ with heap := x } = .ok ((),s₂)) :
    freeMemory base s = .ok (true,s₂) := by
  have hfree : partly Stop.fails (fun s : Registry => (BuddyAllocator.freeMemory base s.heap).map
      (fun x => (x.1,{ s with heap := x.2 }))) s₁ = .ok (r,{ s₁ with heap := x }) := by
    apply partly_ok.mpr
    rw [hx,Option.map_some]
  unfold freeMemory
  rw [get_bind,hpage]
  exact (bind_of_ok hdown).trans ((bind_of_ok hfree).trans (bind_of_ok hup))

theorem freeMemory_ok (hok : HeapOk s.heap) (hb : InArena base) (hg : s.kernel.Guarded)
    (hm : s.buddyMutex = adminMutex) (ha : (s.kernel.mutexes adminMutex).HeldBy none) : ∃ b x k,
    freeMemory base s = .ok (b,{ s with kernel := k, heap := x }) ∧
      k.processes = s.kernel.processes ∧ k.semaphores = s.kernel.semaphores ∧
      ∀ i, i ≠ adminMutex → k.mutexes i = s.kernel.mutexes i := by
  obtain ⟨r,x,hx⟩ : ∃ r x, BuddyAllocator.freeMemory base s.heap = some (r,x) := by
    obtain ⟨hx,-⟩ | ⟨x,i,hx,-⟩ := freeMemory_spec hok hb
    · exact ⟨_,_,hx⟩
    · exact ⟨_,_,hx⟩
  obtain ⟨b,hpage⟩ := isAllocatedPage_isSome hok hb
  cases b with
  | false => exact ⟨_,s.heap,s.kernel,freeMemory_unowned hpage,rfl,rfl,fun _ _ => rfl⟩
  | true =>
    have hopen : (s.kernel.mutexes adminMutex).value ≠ locked := by
      rw [ha.2]
      decide
    have hdown : mutexDown s.buddyMutex s.kernel.caller s = .ok ((),{ s with
        kernel := s.kernel.lockSlot adminMutex locked s.kernel.caller }) :=
      (congrArg (fun m => mutexDown m s.kernel.caller s) hm).trans
        (mutexDown_guarded hg (by decide) (by decide) hopen)
    have hup : mutexUp s.buddyMutex s.kernel.caller { s with
        kernel := s.kernel.lockSlot adminMutex locked s.kernel.caller, heap := x } =
          .ok ((),{ s with
            kernel := s.kernel.lockSlot adminMutex unlocked s.kernel.caller, heap := x }) :=
      (congrArg (fun m => mutexUp m s.kernel.caller _) hm).trans
        (mutexUp_guarded hg rfl (by decide) (by decide) ha.pop)
    exact ⟨true,x,s.kernel.lockSlot adminMutex unlocked s.kernel.caller,
      freeMemory_owned hpage hdown hx hup,rfl,rfl,fun i hi => lockSlot_of_ne hi⟩

/-- Any thread but the first. -/
theorem terminateThread_ok (hok : HeapOk s.heap) (hb : InArena base) (hg : s.kernel.Guarded)
    (hm : s.buddyMutex = adminMutex) (ha : (s.kernel.mutexes adminMutex).HeldBy none)
    (hl : Processes.Live s.kernel.processes t base) (ht : t.thread ≠ 0) : ∃ s',
    terminateThread t s = .ok ((),s') ∧ s'.kernel.threadState t = none ∧
      s'.kernel.semaphores = s.kernel.semaphores ∧
      ∀ i, i ≠ adminMutex → s'.kernel.mutexes i = s.kernel.mutexes i := by
  obtain ⟨b,hblocks,hbase⟩ := hl
  obtain ⟨p,hp,rfl⟩ := Option.map_eq_some_iff.mp hblocks
  obtain ⟨th,hth,rfl⟩ := Option.map_eq_some_iff.mp hbase
  obtain ⟨r,x,k,hfree,hps,hsem,hmut⟩ := freeMemory_ok hok hb hg hm ha
  have hdelete : deleteThread th s = .ok ((),{ s with kernel := k, heap := x }) :=
    bind_of_ok hfree
  refine ⟨{ s with kernel := k.terminateThread t p, heap := x },?_,?_,hsem,hmut⟩
  · unfold terminateThread
    simp only [get_bind,hp,if_neg ht,hth]
    rw [bind_of_ok hdelete]
    rfl
  · simp [Kernel.threadState,Processes.threadState,Processes.thread?,Kernel.terminateThread,
      Process.terminateThread]

/-! ### `killThread` -/

/-- The clean-up begins with the lock of the mutexes. -/
theorem Sane.sweeping (hs : s.Sane) (hl : Processes.Live s.kernel.processes t base) (h : t.used)
    (ha : (s.kernel.mutexes adminMutex).value ≠ locked) :
    s.kernel.mutexDown adminMutex t = some (.returned,s.kernel.lockSlot adminMutex locked t) ∧
      Sweeping t base (some t) (s.kernel.lockSlot adminMutex locked t) := by
  have hopen := (hs.sound adminMutex (by decide)).heldBy_none ha
  have hdown := hs.guarded.mutexDown (t := t) (by decide) (by decide) ha
  have hs₁ := hs.down h hdown
  refine ⟨hdown,hs₁.guarded,hs₁.sound,hl,?_⟩
  rw [lockSlot_self]
  exact ⟨hopen.1,rfl,rfl⟩

/-- It goes on with that of the semaphores. -/
theorem sweeping_semaphores (hk : Sweeping t base none k) (h : t.used)
    (h1 : (k.mutexes 1).value ≠ locked) :
    k.mutexDown 1 t = some (.returned,k.lockSlot 1 locked t) ∧
      Sweeping t base none (k.lockSlot 1 locked t) ∧
      ((k.lockSlot 1 locked t).mutexes 1).HeldBy (some t) := by
  have hfree := (hk.sound 1 (by decide)).heldBy_none h1
  have hdown := hk.guarded.mutexDown (t := t) (by decide) le_rfl h1
  have hsweeps : Sweeps k (k.lockSlot 1 locked t) := ⟨Reaches.mutexDown trivial h hdown,rfl,rfl⟩
  refine ⟨hdown,hk.sweeps hsweeps ?_,?_⟩
  · rw [lockSlot_of_ne (by decide)]
    exact hk.admin
  · rw [lockSlot_self]
    exact ⟨hfree.1,rfl,rfl⟩

/-- Both locks are taken and given up on the way. -/
theorem killThread_ok (hs : s.Sane) (hl : Processes.Live s.kernel.processes t base)
    (hp : 0 < t.pid) (ht : t.thread ≠ 0) (hb : InArena base) (hr : s.kernel.Removable t) : ∃ s',
    killThread (downKill t h n) t h s = .ok ((),s') ∧ Cleaned t s.kernel s'.kernel := by
  obtain ⟨hdown,hk₁⟩ := hs.sweeping hl h hr.adminMutex
  have hsame : ∀ i, i ≠ adminMutex →
      (s.kernel.lockSlot adminMutex locked t).mutexes i = s.kernel.mutexes i :=
    fun i hi => lockSlot_of_ne hi
  obtain ⟨k₂,h₂,hsweeps,hk₂,hswept⟩ := sweepMutexes_ok (s := s) (h := h) hk₁ hp
    (fun i hi h0 => (hr.mutexes i hi h0).congr (hsame i h0) rfl)
  have hsem : k₂.semaphores = s.kernel.semaphores := hsweeps.semaphores
  have hopen₂ : (k₂.mutexes 1).value ≠ locked := by
    apply swept_open (hswept 1 (by decide) (by decide)) hk₁.guarded hp (hk₁.sound 1 (by decide))
    rw [hsame 1 (by decide)]
    exact hr.semaphoreMutex
  obtain ⟨hdown₂,hk₃,hheld⟩ := sweeping_semaphores hk₂ h hopen₂
  obtain ⟨k₄,h₄,hk₄,hmutexes,hsemaphores⟩ := sweepSemaphores_ok (s := s) (h := h) hk₃
    hs.semaphoreMutex hheld (fun i hi => (hr.semaphores i hi).congr (congrFun hsem i))
  obtain ⟨s₅,h₅,hgone,hsem₅,hmut₅⟩ := terminateThread_ok (s := { s with kernel := k₄ }) hs.heap hb
    hk₄.guarded hs.buddyMutex hk₄.admin hk₄.live ht
  refine ⟨s₅,?_,hgone,fun i hi h0 h1 => ?_,fun i hi => ?_⟩
  · have hadmin : downKill t h n adminMutex s = _ := downKill_other hdown (by decide)
    have hsemaphore : downKill t h n s.semaphoreMutex { s with kernel := k₂ } =
        .ok (.returned,{ s with kernel := k₂.lockSlot 1 locked t }) := by
      rw [hs.semaphoreMutex]
      exact downKill_other hdown₂ (by decide)
    unfold killThread
    rw [get_bind,if_pos hl.isSome]
    refine (behind_returned hadmin).trans ((bind_of_ok h₂).trans ?_)
    refine (behind_returned hsemaphore).trans ((bind_of_ok h₄).trans h₅)
  · have hlast : s₅.kernel.mutexes i = k₂.mutexes i := by
      rw [hmut₅ i h0]
      exact (hmutexes i h1).trans (lockSlot_of_ne h1)
    rw [hlast,← hsame i h0]
    exact hswept i hi h0
  · have hstrange : (k₂.lockSlot 1 locked t).Strange t i := by
      intro j hj
      show (k₂.semaphores i).list.blocked j ≠ t
      rw [hsem]
      exact hi j hj
    rw [hsem₅]
    exact (hsemaphores i hstrange).trans (congrFun hsem i)

theorem downOr_ok (hx : downOr kill m t s = .ok (o,s')) : ∃ k, s.kernel.mutexDown m t = some (o,k) ∧
    (o ≠ .full → s' = { s with kernel := k }) := by
  cases hk : s.kernel.mutexDown m t with
  | none =>
    unfold downOr at hx
    rw [get_bind] at hx
    simp only [hk] at hx
    cases hx
  | some r =>
    obtain ⟨o',k⟩ := r
    by_cases ho : o' = .full
    · subst ho
      rw [downOr_full hk] at hx
      obtain ⟨-,x,-,hy⟩ := bind_ok.mp hx
      cases hy
      exact ⟨k,rfl,fun hf => absurd rfl hf⟩
    · rw [downOr_other hk ho] at hx
      cases hx
      exact ⟨k,rfl,fun _ => rfl⟩

theorem downKill_ok (hx : downKill t h n m s = .ok (o,s')) :
    ∃ k, s.kernel.mutexDown m t = some (o,k) ∧ (o ≠ .full → s' = { s with kernel := k }) := by
  cases n with
  | zero => exact downOr_ok hx
  | succ n => exact downOr_ok hx

/-- A LOCKED mutex does not let the caller through. -/
theorem mutexDown_refused (hv : k.isValidMutex m) (hl : (k.mutexes m).value = locked)
    {k' : Kernel} : k.mutexDown m t ≠ some (.returned,k') := by
  intro hk
  obtain ⟨hx,-⟩ | ⟨-,-,x,hx,-⟩ := mutexDown_cases hk
  · exact hx hv
  · cases hx with
    | free hf => exact hf hl

theorem mutexDown_full_iff {k' : Kernel} (hk : k.mutexDown m t = some (.full,k')) :
    k.isValidMutex m ∧ (k.mutexes m).value = locked ∧ (k.mutexes m).list.Full ∧
      k' = k.testAndSetLock m := by
  obtain ⟨-,ho,-⟩ | ⟨hv,-,x,hx,-⟩ := mutexDown_cases hk
  · cases ho
  · cases hx with
    | full hl ha =>
      have hf := BlockedList.add_none.mp ha
      rw [mutexDown_full hv hl hf] at hk
      cases hk
      exact ⟨hv,hl,hf,rfl⟩

/-- The kill comes inside another one, for the sake of a lock of the tables, if at all. -/
def NestsOnly (t : ThreadId) (h : t.used) (n : ℕ) : Prop := ∀ ⦃x : Registry⦄ ⦃m : ℤ⦄ ⦃k : Kernel⦄
  ⦃base : ℕ⦄ ⦃x' : Registry⦄, x.Sane → Processes.Live x.kernel.processes t base →
    x.kernel.mutexDown m t = some (.full,k) → ¬ k.Removable t → downKill t h n m x ≠ .ok (.full,x')

theorem killThread_nested (hn : NestsOnly t h n) (hs : s.Sane)
    (hl : Processes.Live s.kernel.processes t base) (hp : 0 < t.pid)
    (hr : ¬ s.kernel.Removable t) : killThread (downKill t h n) t h s ≠ .ok ((),s') := by
  intro hx
  unfold killThread at hx
  rw [get_bind,if_pos hl.isSome] at hx
  by_cases ha : (s.kernel.mutexes adminMutex).value = locked
  · obtain ⟨y,hd,-⟩ | hd := behind_ok hx
    · obtain ⟨k,hk,-⟩ := downKill_ok hd
      exact mutexDown_refused (hs.guarded.valid (by decide) (by decide)) ha hk
    · obtain ⟨k,hk,-⟩ := downKill_ok hd
      obtain ⟨-,-,-,rfl⟩ := mutexDown_full_iff hk
      refine hn hs hl hk (fun hy => hy.adminMutex ?_) hd
      rw [testAndSetLock_mutexes_self]
  · obtain ⟨hdown,hk₁⟩ := hs.sweeping hl h ha
    have hsame : ∀ i, i ≠ adminMutex →
        (s.kernel.lockSlot adminMutex locked t).mutexes i = s.kernel.mutexes i :=
      fun i hi => lockSlot_of_ne hi
    have hadmin : downKill t h n adminMutex s = _ := downKill_other hdown (by decide)
    rw [behind_returned hadmin] at hx
    by_cases hpass : ∀ i, InMutexes i → i ≠ adminMutex → s.kernel.Passable t i
    · obtain ⟨k₂,h₂,hsweeps,hk₂,hswept⟩ := sweepMutexes_ok (s := s) (h := h) hk₁ hp
        (fun i hi h0 => (hpass i hi h0).congr (hsame i h0) rfl)
      have hswept₁ := hswept 1 (by decide) (by decide)
      have hok₁ := hk₁.sound 1 (by decide)
      have hx := (bind_of_ok h₂).symm.trans hx
      have hlock : downKill t h n s.semaphoreMutex { s with kernel := k₂ } =
          downKill t h n 1 { s with kernel := k₂ } :=
        congrArg (fun m => downKill t h n m _) hs.semaphoreMutex
      by_cases h1 : (s.kernel.mutexes 1).value = locked →
          (s.kernel.mutexes 1).Up t ∧ (s.kernel.mutexes 1).list.waiters = []
      · have hopen₂ : (k₂.mutexes 1).value ≠ locked := by
          apply swept_open hswept₁ hk₁.guarded hp hok₁
          rw [hsame 1 (by decide)]
          exact h1
        obtain ⟨hdown₂,hk₃,hheld⟩ := sweeping_semaphores hk₂ h hopen₂
        have hset : ∃ i, InSemaphores i ∧ ¬ (k₂.lockSlot 1 locked t).Settled t i := by
          by_contra hy
          push Not at hy
          exact hr ⟨ha,h1,hpass,fun i hi => (hy i hi).congr (congrFun hsweeps.semaphores i).symm⟩
        have hsemaphore : downKill t h n s.semaphoreMutex { s with kernel := k₂ } = _ :=
          hlock.trans (downKill_other hdown₂ (by decide))
        obtain ⟨e,he⟩ := sweepSemaphores_error (s := s) (h := h) hk₃ hs.semaphoreMutex hheld.2.1
          hset
        have hx := ((bind_of_error he).symm.trans (behind_returned hsemaphore).symm).trans hx
        cases hx
      · have hl₁ : (s.kernel.mutexes 1).value = locked := by
          by_contra hne
          exact h1 (fun hy => absurd hy hne)
        have hlocked : (k₂.mutexes 1).value = locked := by
          apply swept_locked hswept₁ hk₁.guarded hp hok₁
          · rw [hsame 1 (by decide)]
            exact hl₁
          · rw [hsame 1 (by decide)]
            exact fun hy => h1 (fun _ => hy)
        have hs₂ : Sane { s with kernel := k₂ } := ⟨hk₂.guarded,hk₂.sound,hs.semaphoreMutex,
          hs.buddyMutex,hs.channelMutex,hs.heap⟩
        obtain ⟨y,hd,-⟩ | hd := behind_ok hx
        · obtain ⟨k,hk,-⟩ := downKill_ok (hlock.symm.trans hd)
          exact mutexDown_refused (hk₂.guarded.valid (by decide) (by decide)) hlocked hk
        · obtain ⟨k,hk,-⟩ := downKill_ok (hlock.symm.trans hd)
          obtain ⟨-,-,hfull,rfl⟩ := mutexDown_full_iff hk
          have hcount := (hk₂.sound 1 (by decide)).counted
          refine hn hs₂ hk₂.live hk (fun hy => ?_) (hlock.symm.trans hd)
          -- nobody fits into the list, so that it is not given up to nobody
          have hnil := (hy.semaphoreMutex (by rw [testAndSetLock_mutexes_self])).2
          rw [testAndSetLock_mutexes_self] at hnil
          have hq := hfull.quantity hcount
          rw [hcount.waiters_nil.mp hnil] at hq
          exact absurd hq (by decide)
    · push Not at hpass
      obtain ⟨i,hi,h0,hy⟩ := hpass
      obtain ⟨e,he⟩ := sweepMutexes_error (s := s) (h := h) hk₁ hp
        ⟨i,hi,h0,fun hz => hy (hz.congr (hsame i h0).symm rfl)⟩
      rw [bind_of_error he] at hx
      cases hx

/-- However deep the calls may be nested. -/
theorem killThread_stuck (hs : s.Sane) (hl : Processes.Live s.kernel.processes t base)
    (hp : 0 < t.pid) (hr : ¬ s.kernel.Removable t) :
    killThread (downKill t h n) t h s ≠ .ok ((),s') := by
  have hnests : NestsOnly t h n := by
    induction n with
    | zero =>
      intro x m k base x' _ _ hk _ hx
      rw [show downKill t h 0 m x = downOr (stop .fails) m t x from rfl,downOr_full hk] at hx
      cases hx
    | succ n ih =>
      intro x m k base x' hs hl hk hr hx
      obtain ⟨-,-,-,rfl⟩ := mutexDown_full_iff hk
      rw [downKill_full hk] at hx
      obtain ⟨⟨⟩,y,hy,-⟩ := bind_ok.mp hx
      exact killThread_nested ih (hs.down h hk) hl hp hr hy
  exact killThread_nested hnests hs hl hp hr

/-! ### Objects with a full list -/

end Registry

structure Mutex.Undisturbed (m m' : Mutex) : Prop where
  value : m'.value = m.value
  list : m'.list = m.list
  lockProcess : m'.lockProcess = m.lockProcess

/-- A sweep leaves a full mutex alone if it has nothing of the thread's. -/
theorem Mutex.Swept.undisturbed {t : ThreadId} {m m' : Mutex} (h : Swept t m m') (hok : m.Ok)
    (hf : m.list.Full) (hne : ∀ j < maxBlocked, m.list.blocked j ≠ t) :
    m.Undisturbed m' ↔ m.creator ≠ t ∧ ¬ m.Up t := by
  have hq := hf.quantity hok.counted
  have hmax : (0 : ℤ) < maxBlocked := by decide
  cases h with
  | released hc hz =>
    refine ⟨fun hx => ?_,fun hx => absurd hc hx.1⟩
    rw [hx.list,hq] at hz
    exact absurd hmax hz
  | up hc hu hg hd =>
    refine ⟨fun hx => ?_,fun hx => absurd hu hx.2⟩
    have hless := hd.quantity
    have hlist := congrArg BlockedList.blockedQuantity hx.list
    simp only at hlist
    cases hg with
    | free hpop =>
      rw [hok.counted.pop_none.mp hpop] at hq
      omega
    | handed hpop =>
      have hminus := BlockedList.pop_quantity hpop
      simp only at hless
      omega
  | kept hc hu hd => exact ⟨fun _ => ⟨hc,hu⟩,fun _ => ⟨rfl,hd.kept hne,rfl⟩⟩

namespace Kernel
variable {k k' : Kernel} {t : ThreadId} {i m semaphore : ℤ} {base : ℕ}

theorem testAndSetLock_locked (hl : (k.mutexes m).value = locked) :
    (k.testAndSetLock m).mutexes m = k.mutexes m := by
  rw [testAndSetLock_mutexes_self,← hl]

/-- Who is to come to an end at a full mutex has neither of the locks in his way. -/
theorem Removable.ne (hr : (k.testAndSetLock m).Removable t) (hok : (k.mutexes m).Ok)
    (hf : (k.mutexes m).list.Full) : m ≠ ComplexOS.adminMutex ∧ m ≠ 1 := by
  have hl := hok.locked_of_full hf
  constructor
  · rintro rfl
    apply hr.adminMutex
    rw [testAndSetLock_locked hl]
    exact hl
  · rintro rfl
    have hnil := (hr.semaphoreMutex (by rw [testAndSetLock_locked hl]; exact hl)).2
    rw [testAndSetLock_locked hl] at hnil
    have hq := hf.quantity hok.counted
    rw [hok.counted.waiters_nil.mp hnil] at hq
    exact absurd hq (by decide)

theorem mutexDown_keeps {o : DownOutcome} (ho : o ≠ .queued) (h : k.mutexDown m t = some (o,k')) :
    k'.processes = k.processes := by
  rw [mutexDown] at h
  split at h
  · simp only at h
    split at h
    · split at h
      · obtain ⟨k₁,-,he⟩ := Option.map_eq_some_iff.mp h
        cases he
        exact absurd rfl ho
      · cases h
        rfl
    · cases h
      rfl
  · cases h
    rfl

/-- On a full list `wait` has counted already. -/
theorem waitBody_full (h : k.waitBody semaphore t = some (.full,k')) :
    k' = k.setSemaphore semaphore { k.semaphores semaphore with
      value := (k.semaphores semaphore).value-1 } := by
  obtain ⟨v,hv,h⟩ := Option.bind_eq_some_iff.mp h
  obtain ⟨-,he⟩ := Option.ite_none_right_eq_some.mp hv
  cases he
  simp only at h
  split at h
  · split at h
    · obtain ⟨k₁,-,he⟩ := Option.map_eq_some_iff.mp h
      cases he
    · cases h
      rfl
  · cases h

end Kernel

namespace Registry
variable {s s' : Registry} {m semaphore : ℤ} {t : ThreadId} {h : t.used} {base n : ℕ}

theorem downKill_ends (hs : s.Sane) (hl : Processes.Live s.kernel.processes t base)
    (hp : 0 < t.pid) (ht : t.thread ≠ 0) (hb : InArena base) (hv : s.kernel.isValidMutex m)
    (hf : (s.kernel.mutexes m).list.Full) (hr : (s.kernel.testAndSetLock m).Removable t) : ∃ s',
    downKill t h (n+1) m s = .ok (.full,s') ∧ Cleaned t (s.kernel.testAndSetLock m) s'.kernel := by
  have hl₁ := (hs.sound m ⟨hv.1,hv.2.1⟩).locked_of_full hf
  have hdown : s.kernel.mutexDown m t = _ := mutexDown_full hv hl₁ hf
  obtain ⟨s',hx,hc⟩ := killThread_ok (n := n) (h := h) (hs.down h hdown) hl hp ht hb hr
  exact ⟨s',(downKill_full hdown).trans (bind_of_ok hx),hc⟩

theorem downKill_full_ok (hs : s.Sane) (hl : Processes.Live s.kernel.processes t base)
    (hp : 0 < t.pid) (ht : t.thread ≠ 0) (hb : InArena base)
    (hx : downKill t h n m s = .ok (.full,s')) : s.kernel.isValidMutex m ∧
      (s.kernel.mutexes m).list.Full ∧ (s.kernel.testAndSetLock m).Removable t ∧
      Cleaned t (s.kernel.testAndSetLock m) s'.kernel := by
  obtain ⟨k,hk,-⟩ := downKill_ok hx
  obtain ⟨hv,-,hf,rfl⟩ := mutexDown_full_iff hk
  cases n with
  | zero =>
    have hy : downOr (stop .fails) m t s = _ := downOr_full hk
    have hx := hy.symm.trans hx
    cases hx
  | succ n =>
    have hr : (s.kernel.testAndSetLock m).Removable t := by
      by_contra hr
      rw [downKill_full hk] at hx
      obtain ⟨⟨⟩,y,hy,-⟩ := bind_ok.mp hx
      exact killThread_stuck (hs.down h hk) hl hp hr hy
    obtain ⟨s₁,hy,hc⟩ := downKill_ends (n := n) (h := h) hs hl hp ht hb hv hf hr
    rw [hx] at hy
    cases hy
    exact ⟨hv,hf,hr,hc⟩

theorem mutex_full (hs : s.Sane) (hl : Processes.Live s.kernel.processes t base)
    (hp : 0 < t.pid) (ht : t.thread ≠ 0) (hb : InArena base) (hv : s.kernel.isValidMutex m)
    (hf : (s.kernel.mutexes m).list.Full)
    (hne : ∀ j < maxBlocked, (s.kernel.mutexes m).list.blocked j ≠ t) :
    (∃ n s', downKill t h n m s = .ok (.full,s') ∧ s'.kernel.threadState t = none ∧
      (s.kernel.mutexes m).Undisturbed (s'.kernel.mutexes m)) ↔
    (s.kernel.testAndSetLock m).Removable t ∧ (s.kernel.mutexes m).creator ≠ t ∧
      ¬ (s.kernel.mutexes m).Up t := by
  have hok := hs.sound m ⟨hv.1,hv.2.1⟩
  have hswept : ∀ s' : Registry, (s.kernel.testAndSetLock m).Removable t →
      Cleaned t (s.kernel.testAndSetLock m) s'.kernel →
        Mutex.Swept t (s.kernel.mutexes m) (s'.kernel.mutexes m) := by
    intro s' hr hc
    have hm := hr.ne hok hf
    have hx := hc.mutexes m ⟨hv.1,hv.2.1⟩ hm.1 hm.2
    rw [testAndSetLock_locked (hok.locked_of_full hf)] at hx
    exact hx
  constructor
  · rintro ⟨n,s',hx,-,hu⟩
    obtain ⟨-,-,hr,hc⟩ := downKill_full_ok hs hl hp ht hb hx
    exact ⟨hr,((hswept s' hr hc).undisturbed hok hf hne).mp hu⟩
  · rintro ⟨hr,hx⟩
    obtain ⟨s',hy,hc⟩ := downKill_ends (n := 0) (h := h) hs hl hp ht hb hv hf hr
    exact ⟨1,s',hy,hc.gone,((hswept s' hr hc).undisturbed hok hf hne).mpr hx⟩

/-- With its own mutex taken the caller has counted before it is ended. -/
theorem wait_counts (hs : s.Sane) (hl : Processes.Live s.kernel.processes t base)
    (hp : 0 < t.pid) (ht : t.thread ≠ 0) (hb : InArena base)
    (hv : s.kernel.isValidSemaphore semaphore) (hne : s.kernel.Strange t semaphore)
    (hx : wait t h n semaphore s = .ok (.full,s')) :
    downKill t h n (s.kernel.semaphores semaphore).mutex s = .ok (.full,s') ∨
      (s'.kernel.semaphores semaphore).value = (s.kernel.semaphores semaphore).value-1 := by
  unfold wait at hx
  rw [get_bind,if_pos hv] at hx
  obtain ⟨o,s₁,hd,hx⟩ := bind_ok.mp hx
  cases o with
  | queued => cases hx
  | full =>
    cases hx
    exact Or.inl hd
  | returned =>
    obtain ⟨k,hk,hs₁⟩ := downKill_ok hd
    obtain rfl := hs₁ (by decide)
    have hsane := hs.down h hk
    have hsem : k.semaphores = s.kernel.semaphores := mutexDown_semaphores hk
    have hlive : Processes.Live k.processes t base := by
      rw [mutexDown_keeps (by decide) hk]
      exact hl
    simp only [get_bind] at hx
    cases hw : k.waitBody semaphore t with
    | none =>
      simp only [hw] at hx
      cases hx
    | some r =>
      obtain ⟨o,k₂⟩ := r
      simp only [hw,modify_bind] at hx
      obtain rfl : o = .full := by
        split at hx
        · assumption
        · rw [get_bind] at hx
          obtain ⟨⟨⟩,s₂,-,hx⟩ := bind_ok.mp hx
          cases hx
          rfl
      rw [if_pos rfl] at hx
      obtain ⟨⟨⟩,s₂,hkill,hx⟩ := bind_ok.mp hx
      rw [get_bind] at hx
      obtain ⟨⟨⟩,s₃,hup,hx⟩ := bind_ok.mp hx
      cases hx
      have hk₂ := waitBody_full hw
      have hself : k₂.semaphores semaphore = { s.kernel.semaphores semaphore with
          value := (s.kernel.semaphores semaphore).value-1 } := by
        rw [hk₂,setSemaphore_semaphores_self,hsem]
      have hsane₂ : Sane { s with kernel := k₂ } := by
        rw [hk₂]
        exact ⟨hsane.guarded.congr (fun _ _ _ => rfl) rfl,hsane.sound,hs.semaphoreMutex,
          hs.buddyMutex,hs.channelMutex,hs.heap⟩
      have hlive₂ : Processes.Live k₂.processes t base := by
        rw [hk₂]
        exact hlive
      have hr : k₂.Removable t := by
        by_contra hr
        exact killThread_stuck hsane₂ hlive₂ hp hr hkill
      obtain ⟨s₄,hy,hc⟩ := killThread_ok (n := n) (h := h) hsane₂ hlive₂ hp ht hb hr
      rw [hkill] at hy
      cases hy
      have hstrange : k₂.Strange t semaphore := by
        intro j hj
        rw [hself]
        exact hne j hj
      obtain ⟨k₃,hk₃,rfl⟩ := mutexUp_ok.mp hup
      have hlast : k₃.semaphores = s₂.kernel.semaphores := mutexUp_semaphores hk₃
      right
      show (k₃.semaphores semaphore).value = _
      rw [hlast,hc.semaphores semaphore hstrange,hself]

theorem wait_full (hs : s.Sane) (hl : Processes.Live s.kernel.processes t base)
    (hp : 0 < t.pid) (ht : t.thread ≠ 0) (hb : InArena base)
    (hv : s.kernel.isValidSemaphore semaphore) (hne : s.kernel.Strange t semaphore) :
    (∃ n s', wait t h n semaphore s = .ok (.full,s') ∧ s'.kernel.threadState t = none ∧
      s'.kernel.semaphores semaphore = s.kernel.semaphores semaphore) ↔
    s.kernel.isValidMutex (s.kernel.semaphores semaphore).mutex ∧
      (s.kernel.mutexes (s.kernel.semaphores semaphore).mutex).list.Full ∧
      (s.kernel.testAndSetLock (s.kernel.semaphores semaphore).mutex).Removable t := by
  constructor
  · rintro ⟨n,s',hx,-,hsame⟩
    obtain hd | hcount := wait_counts hs hl hp ht hb hv hne hx
    · obtain ⟨hvm,hf,hr,-⟩ := downKill_full_ok hs hl hp ht hb hd
      exact ⟨hvm,hf,hr⟩
    · rw [hsame] at hcount
      omega
  · rintro ⟨hvm,hf,hr⟩
    obtain ⟨s',hx,hc⟩ := downKill_ends (n := 0) (h := h) hs hl hp ht hb hvm hf hr
    refine ⟨1,s',?_,hc.gone,hc.semaphores semaphore hne⟩
    unfold wait
    rw [get_bind,if_pos hv,bind_of_ok hx]
    rfl

/-! ### A list that has filled up -/

end Registry

def manyProcesses : ℤ → Option Process := fun pid =>
  if 1 ≤ pid ∧ pid ≤ 40 then some ⟨0,0,fun i =>
    if i = 0 ∨ i = 1 then some ⟨.ready,notWaiting,BuddyAllocator.base⟩ else none,BuddyAllocator.base⟩
  else none

def filledList (n : ℕ) : BlockedList :=
  ⟨fun j => if j < n then ⟨j+2,0⟩ else clearedMutex.list.blocked j,n⟩

theorem waiter_used (j : ℕ) : ThreadId.used ⟨j+2,0⟩ := by
  have hnot : notUsed = -1 := rfl
  show (j : ℤ)+2 ≠ notUsed
  omega

theorem filledList_full : (filledList maxBlocked).Full := by
  intro j hj
  simp only [filledList,if_pos hj]
  exact waiter_used j

theorem filledList_add {n : ℕ} (hn : n < maxBlocked) :
    (filledList n).add ⟨n+2,0⟩ = some (filledList (n+1)) := by
  have hfirst : SlotTable.firstFree ThreadId.used maxBlocked (filledList n).blocked = some n := by
    apply SlotTable.firstFree_eq_some hn
    · simp only [filledList,lt_irrefl,if_false]
      exact fun hu => hu (by simp [clearedMutex,Mutex.clear,hn])
    · intro i hi
      simp only [filledList,if_pos hi]
      exact waiter_used i
  have hblocked : Function.update (filledList n).blocked n ⟨n+2,0⟩ = (filledList (n+1)).blocked := by
    funext j
    by_cases hj : j = n
    · subst hj
      simp [filledList]
    · have hiff : j < n+1 ↔ j < n := by omega
      simp only [filledList,Function.update_of_ne hj,hiff]
  unfold BlockedList.add nextListIndexAvailable
  rw [hfirst,Option.map_some,hblocked]
  simp [filledList]

namespace Kernel
variable {k k' : Kernel} {m i : ℤ} {t : ThreadId} {o : DownOutcome} {n : ℕ}

/-- What a `mutexDown` does to the other slots. -/
theorem mutexDown_beside (h : k.mutexDown m t = some (o,k')) (hi : i ≠ m) :
    (k'.mutexes i).value = (k.mutexes i).value ∧
      ((k.mutexes i).creator.pid ≤ 0 → (k'.mutexes i).creator.pid ≤ 0) := by
  obtain ⟨-,-,rfl⟩ | ⟨-,-,x,-,hm⟩ := mutexDown_cases h
  · exact ⟨rfl,id⟩
  · rw [hm,marked,Function.update_of_ne hi]
    by_cases he : i = m+1
    · subst he
      rw [Function.update_self]
      exact ⟨rfl,fun _ => le_rfl⟩
    · rw [Function.update_of_ne he]
      exact ⟨rfl,id⟩

structure Filling (m : ℤ) (n : ℕ) (k : Kernel) : Prop where
  valid : k.isValidMutex m
  value : (k.mutexes m).value = locked
  list : (k.mutexes m).list = filledList n
  others : ∀ i, InMutexes i → i ≠ m → (k.mutexes i).value = unlocked
  creators : ∀ i, InMutexes i → (k.mutexes i).creator.pid ≤ 0
  semaphores : ∀ i, InSemaphores i → k.semaphores i = clearedSemaphore
  blocks : Processes.blocks k.processes = Processes.blocks manyProcesses

theorem manyProcesses_answers (h : t.thread = 0 ∨ t.thread = 1) :
    Processes.Answers manyProcesses t := by
  intro p hp _ _
  obtain ⟨-,he⟩ := Option.ite_none_right_eq_some.mp hp
  cases he
  simp [h]

theorem Filling.step (h : Filling m n k) (hn : n < maxBlocked) : ∃ k',
    k.mutexDown m ⟨n+2,0⟩ = some (.queued,k') ∧ Filling m (n+1) k' := by
  have hadd : (k.mutexes m).list.add ⟨n+2,0⟩ = some (filledList (n+1)) := by
    rw [h.list]
    exact filledList_add hn
  have hqueue : (k.testAndSetLock m).addToBlocked m ⟨n+2,0⟩ = some ((k.testAndSetLock m).setMutex m
      { k.mutexes m with value := locked, list := filledList (n+1) }) := by
    unfold addToBlocked
    rw [testAndSetLock_mutexes_self]
    exact Option.map_eq_some_iff.mpr ⟨_,hadd,rfl⟩
  have hanswers : Processes.Answers k.processes ⟨n+2,0⟩ :=
    (Processes.answers_congr h.blocks).mpr (manyProcesses_answers (Or.inl rfl))
  obtain ⟨k',hk'⟩ : ∃ k', ((k.testAndSetLock m).setMutex m { k.mutexes m with
      value := locked, list := filledList (n+1) }).changeThreadState ⟨n+2,0⟩ .blocked = some k' :=
    changeThreadState_of_answers (k := (k.testAndSetLock m).setMutex m _) hanswers
  have hdown : k.mutexDown m ⟨n+2,0⟩ = some (.queued,k') := by
    rw [mutexDown,if_pos h.valid,if_pos h.value,hqueue]
    simp only [hk',Option.map_some]
  have hself : k'.mutexes m = { k.mutexes m with value := locked, list := filledList (n+1) } := by
    rw [(changeThreadState_table hk').1,setMutex_mutexes_self]
  have hblocks : Processes.blocks k'.processes =
      Processes.blocks ((k.testAndSetLock m).setMutex m _).processes := changeThreadState_blocks hk'
  refine ⟨k',hdown,⟨h.valid.1,h.valid.2.1,?_⟩,?_,?_,fun i hi hne => ?_,fun i hi => ?_,
    fun i hi => ?_,?_⟩
  · rw [hself]
    exact h.valid.2.2
  · rw [hself]
  · rw [hself]
  · rw [(mutexDown_beside hdown hne).1]
    exact h.others i hi hne
  · by_cases hne : i = m
    · subst hne
      rw [hself]
      exact h.creators i hi
    · exact (mutexDown_beside hdown hne).2 (h.creators i hi)
  · rw [mutexDown_semaphores hdown]
    exact h.semaphores i hi
  · exact hblocks.trans h.blocks

end Kernel

namespace Registry
variable {s s' : Registry} {m : ℤ} {l : RegistryStep} {n : ℕ}

theorem Reachable.move (h : s.Reachable) (hm : s.move l = some s') : s'.Reachable := by
  obtain ⟨s₀,ls,hmain,hr⟩ := h
  exact ⟨s₀,ls++[l],hmain,Runs.run_append.mpr ⟨s,hr,Runs.run_cons.mpr ⟨s',hm,rfl⟩⟩⟩

theorem Reachable.down {t : ThreadId} {o : DownOutcome} {k : Kernel} (h : s.Reachable) (ht : t.used)
    (hk : s.kernel.mutexDown m t = some (o,k)) : Reachable { s with kernel := k } :=
  h.move (move_down ht hk)

theorem filling_run (h : s.Reachable) (hf : Filling m 0 s.kernel) (hn : n ≤ maxBlocked) : ∃ k,
    Reachable { s with kernel := k } ∧ Filling m n k := by
  induction n with
  | zero => exact ⟨s.kernel,h,hf⟩
  | succ n ih =>
    obtain ⟨k,hk,hfill⟩ := ih (by omega)
    obtain ⟨k',hdown,hfill'⟩ := hfill.step (by omega)
    exact ⟨k',hk.down (s := { s with kernel := k }) (waiter_used n) hdown,hfill'⟩

/-- Any of the locks of the kernel may come to have a full list. -/
theorem filling_lock (h0 : 0 ≤ m) (h2 : m ≤ 2) : ∃ s : Registry, s.Reachable ∧
    Filling m maxBlocked s.kernel := by
  obtain ⟨s,hm,hb⟩ := main_booted
  have hboot : s.Reachable := Reachable.boot hm
  have hmove : s.move (.table (.other { s.kernel with processes := manyProcesses })) =
      some { s with kernel := { s.kernel with processes := manyProcesses } } := rfl
  have hreach := hboot.move hmove
  have hin : InMutexes m := ⟨h0,lt_of_le_of_lt h2 (by decide)⟩
  have hvalid : Kernel.isValidMutex { s.kernel with processes := manyProcesses } m :=
    ⟨hin.1,hin.2,by
      show (s.kernel.mutexes m).creator.pid ≠ notUsed
      rw [hb.guarded.creator m h0 h2]
      decide⟩
  have hopen : (s.kernel.mutexes m).value ≠ locked := by
    rw [hb.mutexes m hin,bootMutex_value]
    decide
  obtain ⟨k,hdown,hself,hps,-,hsem⟩ := Kernel.mutexDown_free (t := ⟨1,0⟩) hvalid hopen
  have hfill : Filling m 0 k := by
    refine ⟨⟨hin.1,hin.2,?_⟩,?_,?_,fun i hi hne => ?_,fun i hi => ?_,fun i hi => ?_,?_⟩
    · rw [hself]
      exact hvalid.2.2
    · rw [hself]
    · rw [hself]
      show (s.kernel.mutexes m).list = filledList 0
      rw [hb.mutexes m hin,bootMutex_list]
      rfl
    · rw [(mutexDown_beside hdown hne).1]
      show (s.kernel.mutexes i).value = unlocked
      rw [hb.mutexes i hi,bootMutex_value]
    · have hlow : (s.kernel.mutexes i).creator.pid ≤ 0 := by
        rw [hb.mutexes i hi]
        unfold bootMutex
        split
        · exact le_rfl
        split
        · exact le_rfl
        split
        · exact le_rfl
        · decide
      by_cases hne : i = m
      · subst hne
        rw [hself]
        exact hlow
      · exact (mutexDown_beside hdown hne).2 hlow
    · rw [hsem]
      exact hb.semaphores i hi
    · rw [hps]
  obtain ⟨k',hk',hfull⟩ := filling_run (hreach.down (by decide) hdown) hfill le_rfl
  exact ⟨_,hk',hfull⟩

/-! ### Full lists -/

variable {t : ThreadId} {h : t.used} {base : ℕ}

/-- A thread that finds the list full is ended, with the object left alone, if and only if
the clean-up finds both locks of the tables, and nothing of the thread's that it gets stuck at. In
`wait` the list that is full must be that of the semaphore's own mutex. -/
theorem full_list (hr : s.Reachable) (hp : 0 < t.pid) (ht : t.thread ≠ 0)
    (hl : Processes.Live s.kernel.processes t base) (hb : InArena base) :
    (∀ m, s.kernel.isValidMutex m → (s.kernel.mutexes m).list.Full →
      (∀ j < maxBlocked, (s.kernel.mutexes m).list.blocked j ≠ t) →
        ((∃ n s', downKill t h n m s = .ok (.full,s') ∧ s'.kernel.threadState t = none ∧
          (s.kernel.mutexes m).Undisturbed (s'.kernel.mutexes m)) ↔
        (s.kernel.testAndSetLock m).Removable t ∧ (s.kernel.mutexes m).creator ≠ t ∧
          ¬ (s.kernel.mutexes m).Up t)) ∧
    ∀ semaphore, s.kernel.isValidSemaphore semaphore → (s.kernel.semaphores semaphore).list.Full →
      (∀ j < maxBlocked, (s.kernel.semaphores semaphore).list.blocked j ≠ t) →
        ((∃ n s', wait t h n semaphore s = .ok (.full,s') ∧ s'.kernel.threadState t = none ∧
          s'.kernel.semaphores semaphore = s.kernel.semaphores semaphore) ↔
        s.kernel.isValidMutex (s.kernel.semaphores semaphore).mutex ∧
          (s.kernel.mutexes (s.kernel.semaphores semaphore).mutex).list.Full ∧
          (s.kernel.testAndSetLock (s.kernel.semaphores semaphore).mutex).Removable t) :=
  ⟨fun _ hv hf hne => mutex_full hr.sane hl hp ht hb hv hf hne,
    fun _ hv _ hne => wait_full hr.sane hl hp ht hb hv hne⟩

theorem manyProcesses_live {k : Kernel} (h : Filling m n k) :
    Processes.Live k.processes ⟨40,1⟩ BuddyAllocator.base := by
  have hlive : Processes.Live manyProcesses ⟨40,1⟩ BuddyAllocator.base := ⟨_,rfl,rfl⟩
  exact hlive.congr h.blocks

theorem filledList_other {j : ℕ} (hj : j < maxBlocked) :
    (filledList maxBlocked).blocked j ≠ ⟨40,1⟩ := by
  intro he
  simp only [filledList,if_pos hj] at he
  have hzero : (0 : ℤ) = 1 := congrArg ThreadId.thread he
  omega

theorem base_inArena : InArena BuddyAllocator.base := ⟨le_rfl,by
  have hsize : 0 < pageSize*pageQuantity := by decide
  omega⟩

/-- The mutex of the channels, which is nobody's. -/
theorem full_list_channelMutex : ∃ (s : Registry) (n : ℕ) (s' : Registry), s.Reachable ∧
    s.kernel.isValidMutex 2 ∧ (s.kernel.mutexes 2).list.Full ∧
    downKill ⟨40,1⟩ (by decide) n 2 s = .ok (.full,s') ∧ s'.kernel.threadState ⟨40,1⟩ = none ∧
    (s.kernel.mutexes 2).Undisturbed (s'.kernel.mutexes 2) := by
  obtain ⟨s,hr,hf⟩ := filling_lock (m := 2) (by decide) le_rfl
  have hfull : (s.kernel.mutexes 2).list.Full := by
    rw [hf.list]
    exact filledList_full
  have hdown : s.kernel.mutexDown 2 ⟨40,1⟩ = some (.full,s.kernel.testAndSetLock 2) :=
    mutexDown_full hf.valid hf.value hfull
  have hcreator : ∀ i, InMutexes i → ((s.kernel.testAndSetLock 2).mutexes i).creator ≠ ⟨40,1⟩ := by
    intro i hi he
    have hlow : ((s.kernel.testAndSetLock 2).mutexes i).creator.pid ≤ 0 := by
      by_cases h2 : i = 2
      · subst h2
        rw [testAndSetLock_locked hf.value]
        exact hf.creators 2 hi
      · exact (mutexDown_beside hdown h2).2 (hf.creators i hi)
    rw [he] at hlow
    exact absurd hlow (by decide)
  have hremovable : (s.kernel.testAndSetLock 2).Removable ⟨40,1⟩ := by
    refine ⟨?_,fun hl => ?_,fun i hi _ => ⟨fun hc => absurd hc (hcreator i hi),fun _ hu => ?_⟩,
      fun i hi => ⟨?_,fun hpos => ?_⟩⟩
    · rw [(mutexDown_beside hdown (by decide)).1,hf.others _ (by decide) (by decide)]
      decide
    · rw [(mutexDown_beside hdown (by decide)).1,hf.others _ (by decide) (by decide)] at hl
      exact absurd hl (by decide)
    · exact absurd hu.1 (by decide)
    · show (s.kernel.semaphores i).creator ≠ ⟨40,1⟩
      rw [hf.semaphores i hi]
      exact fun he => absurd (congrArg ThreadId.pid he) (by decide)
    · have hzero : (clearedSemaphore.list).entries ⟨40,1⟩ (List.range maxBlocked) = 0 := by decide
      have hlist : ((s.kernel.testAndSetLock 2).semaphores i).list = clearedSemaphore.list :=
        congrArg Semaphore.list (hf.semaphores i hi)
      rw [hlist,hzero] at hpos
      exact absurd hpos (lt_irrefl 0)
  have hown : (s.kernel.mutexes 2).creator ≠ ⟨40,1⟩ ∧ ¬ (s.kernel.mutexes 2).Up ⟨40,1⟩ := by
    have hx := hcreator 2 (by decide)
    rw [testAndSetLock_locked hf.value] at hx
    exact ⟨hx,fun hu => absurd hu.1 (by decide)⟩
  obtain ⟨n,s',hx⟩ := ((full_list hr (by decide) (by decide) (manyProcesses_live hf)
    base_inArena).1 2 hf.valid hfull (fun j hj => by rw [hf.list]; exact filledList_other hj)).mpr
      ⟨hremovable,hown⟩
  exact ⟨s,n,s',hr,hf.valid,hfull,hx⟩

/-- At `adminMutex` every kill begins with another one. -/
theorem full_list_adminMutex : ∃ s : Registry, s.Reachable ∧ s.kernel.isValidMutex adminMutex ∧
    (s.kernel.mutexes adminMutex).list.Full ∧
    (∀ j < maxBlocked, (s.kernel.mutexes adminMutex).list.blocked j ≠ ⟨40,1⟩) ∧
    Processes.Live s.kernel.processes ⟨40,1⟩ BuddyAllocator.base ∧
    ∀ n s', downKill ⟨40,1⟩ (by decide) n adminMutex s ≠ .ok (.full,s') := by
  obtain ⟨s,hr,hf⟩ := filling_lock (m := adminMutex) (by decide) (by decide)
  have hfull : (s.kernel.mutexes adminMutex).list.Full := by
    rw [hf.list]
    exact filledList_full
  refine ⟨s,hr,hf.valid,hfull,fun j hj => ?_,manyProcesses_live hf,fun n s' hx => ?_⟩
  · rw [hf.list]
    exact filledList_other hj
  · obtain ⟨-,-,hremovable,-⟩ := downKill_full_ok hr.sane (manyProcesses_live hf) (by decide)
      (by decide) base_inArena hx
    exact (hremovable.ne (hr.sane.sound adminMutex (by decide)) hfull).1 rfl

end Registry
end ComplexOS
