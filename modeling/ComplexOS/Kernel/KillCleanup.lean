import ComplexOS.Kernel.KillFrees

/-! # What a kill leaves behind

A kill that comes back has cleaned up after its victim exactly if the victim created what it
created as its current thread, and holds what it holds under its pid.
-/
namespace ComplexOS
open Kernel Call BuddyAllocator

namespace Registry.Kills
variable {down down' : ℤ → ThreadId → KernelCall Unit} {v : Victim} {t : ThreadId} {pid i thread : ℤ}

section
variable (hd : ∀ mutex t, Extends (down mutex t) (down' mutex t))
include hd

theorem releaseMutex_extends :
    Extends (releaseMutex down pid i thread) (releaseMutex down' pid i thread) :=
  (hd _ _).bind (fun _ => Extends.refl)

theorem releaseSemaphoreBody_extends :
    Extends (releaseSemaphoreBody down t i) (releaseSemaphoreBody down' t i) := by
  refine Extends.refl.bind (fun s => ?_)
  split
  · exact (releaseMutex_extends hd).bind (fun _ => Extends.refl)
  · exact Extends.refl

theorem releaseSemaphore_extends :
    Extends (releaseSemaphore down pid i thread) (releaseSemaphore down' pid i thread) := by
  refine Extends.refl.bind (fun s => (hd _ _).bind (fun _ => ?_))
  exact (releaseSemaphoreBody_extends hd).bind (fun _ => Extends.refl)

theorem sweepMutex_extends {i : ℕ} : Extends (sweepMutex down v t i) (sweepMutex down' v t i) := by
  refine Extends.bind (Extends.refl.bind (fun s => ?_)) (fun _ => Extends.refl)
  split
  · exact (releaseMutex_extends hd).bind (fun _ => Extends.refl)
  · exact Extends.refl

theorem sweepSemaphore_extends {i : ℕ} :
    Extends (sweepSemaphore down v t i) (sweepSemaphore down' v t i) := by
  refine Extends.bind (Extends.refl.bind (fun s => ?_)) (fun _ => Extends.refl)
  split
  · exact (releaseSemaphore_extends hd).bind (fun _ => Extends.refl)
  · exact Extends.refl

theorem removeFromMutexes_extends :
    Extends (removeFromMutexes down v t) (removeFromMutexes down' v t) :=
  (hd _ _).bind (fun _ => (Extends.forM (fun _ => sweepMutex_extends hd)).bind (fun _ => Extends.refl))

theorem removeFromSemaphores_extends :
    Extends (removeFromSemaphores down v t) (removeFromSemaphores down' v t) :=
  Extends.refl.bind (fun _ => (hd _ _).bind (fun _ =>
    (Extends.forM (fun _ => sweepSemaphore_extends hd)).bind (fun _ => Extends.refl)))

theorem killProcess_extends {h : pid ≠ notUsed} :
    Extends (killProcess down pid h) (killProcess down' pid h) := by
  refine Extends.refl.bind (fun s => ?_)
  split
  · exact Extends.refl
  · refine Extends.refl.bind (fun _ => Extends.refl.bind (fun _ => Extends.refl.bind (fun _ => ?_)))
    refine (removeFromMutexes_extends hd).bind (fun _ => Extends.refl.bind (fun _ => ?_))
    exact (removeFromSemaphores_extends hd).bind (fun _ => Extends.refl)

end

end Registry.Kills

/-- A kill that never waits is the same kill for every killer. -/
theorem Registry.killProcess_extends {pid : ℤ} {h : pid ≠ notUsed} :
    Extends (Registry.killProcess pid h) (Registry.killProcessFor pid h) := by
  rw [← Kills.killProcess_mutexDown]
  exact Kills.killProcess_extends (fun _ _ => mutexDown_extends)

def Mutex.Untouched (pid : ℤ) (m : Mutex) : Prop :=
  m.creator.pid ≠ pid ∧ m.lockProcess ≠ ⟨pid,pid⟩ ∧ ∀ j < maxBlocked, (m.list.blocked j).pid ≠ pid

def Semaphore.Untouched (pid : ℤ) (x : Semaphore) : Prop :=
  x.creator.pid ≠ pid ∧ ∀ j < maxBlocked, (x.list.blocked j).pid ≠ pid

namespace Registry
variable {s s' s₁ s₂ : Registry} {i pid : ℤ} {t : ThreadId} {hne : t.pid ≠ notUsed}

theorem sweepMutex_untouched {i : ℕ} (h : (s.kernel.mutexes i).Untouched t.pid) :
    sweepMutex ⟨t.pid,none,hne⟩ t i s = .ok ((),s) := by
  obtain ⟨hc,hl,hw⟩ := h
  refine sweepMutex_idle (by rwa [covers_pid]) (fun hcover => ?_) (fun j hj => ?_)
  · rw [covers_pid] at hcover
    rwa [hcover]
  · rw [covers_pid]
    exact hw j hj

theorem sweepSemaphore_untouched {i : ℕ} (h : (s.kernel.semaphores i).Untouched t.pid) :
    sweepSemaphore ⟨t.pid,none,hne⟩ t i s = .ok ((),s) := by
  obtain ⟨hc,hw⟩ := h
  have howned : releaseOwnedSemaphore ⟨t.pid,none,hne⟩ t i s = .ok ((),s) := by
    unfold releaseOwnedSemaphore
    rw [get_bind,if_neg (by rwa [covers_pid])]
    rfl
  unfold sweepSemaphore
  rw [bind_of_ok howned]
  refine forM_idle (fun j hj => piece_ok.mpr ⟨s.kernel,if_neg ?_,rfl⟩)
  rw [covers_pid]
  exact hw j (List.mem_range.mp hj)

theorem removeFromMutexes_idle (ho : Ordered s) (ht : t.thread ≠ t.pid)
    (hv : (s.kernel.mutexes adminMutex).value ≠ locked)
    (h : ∀ i, InMutexes i → (s.kernel.mutexes i).Untouched t.pid) :
    removeFromMutexes ⟨t.pid,none,hne⟩ t s =
      .ok ((),{ s with kernel := s.kernel.lockSlot adminMutex unlocked t }) := by
  have h0 : 0 ≤ adminMutex := le_rfl
  have hpop : (s.kernel.mutexes adminMutex).list.pop = none :=
    ((ho.sound adminMutex (by decide)).holds_empty
      ((ho.sound adminMutex (by decide)).open_value hv)).pop_empty
  unfold removeFromMutexes
  rw [bind_of_ok (mutexDown_guarded ho.guarded h0 (by decide) hv)]
  refine (bind_of_ok (forM_idle (fun i hi => ?_))).trans
    (mutexUp_guarded (k := s.kernel) ho.guarded rfl h0 (by decide) hpop)
  have hi : InMutexes i := ⟨Int.natCast_nonneg i,by
    have := List.mem_range.mp hi
    have hmax : maxMutexes.toNat = 128 := rfl
    show (i : ℤ) < 128
    omega⟩
  apply sweepMutex_untouched
  show ((s.kernel.lockSlot adminMutex locked t).mutexes i).Untouched t.pid
  by_cases he : (i : ℤ) = adminMutex
  · rw [he,lockSlot_self]
    obtain ⟨hc,-,hw⟩ := h adminMutex (by decide)
    exact ⟨hc,fun hx => ht (congrArg ThreadId.thread hx),hw⟩
  · rw [lockSlot_of_ne he]
    exact h i hi

theorem removeFromSemaphores_idle (ho : Ordered s) (hv : (s.kernel.mutexes 1).value ≠ locked)
    (h : ∀ i, InSemaphores i → (s.kernel.semaphores i).Untouched t.pid) :
    removeFromSemaphores ⟨t.pid,none,hne⟩ t s =
      .ok ((),{ s with kernel := s.kernel.lockSlot 1 unlocked t }) := by
  have h0 : (0 : ℤ) ≤ 1 := by decide
  have hpop : (s.kernel.mutexes 1).list.pop = none :=
    ((ho.sound 1 (by decide)).holds_empty ((ho.sound 1 (by decide)).open_value hv)).pop_empty
  have hdown := (congrArg (fun m => mutexDown m t s) ho.semaphoreMutex).trans
    (mutexDown_guarded ho.guarded h0 le_rfl hv)
  have hup : mutexUp s.semaphoreMutex t { s with kernel := s.kernel.lockSlot 1 locked t } = _ :=
    (congrArg (fun m => mutexUp m t { s with kernel := s.kernel.lockSlot 1 locked t })
      ho.semaphoreMutex).trans (mutexUp_guarded (k := s.kernel) ho.guarded rfl h0 (by decide) hpop)
  unfold removeFromSemaphores
  rw [get_bind,bind_of_ok hdown]
  refine (bind_of_ok (forM_idle (fun i hi => ?_))).trans hup
  have hlt := List.mem_range.mp hi
  have hmax : maxSemaphores.toNat = 64 := rfl
  have hi : InSemaphores i := ⟨Int.natCast_nonneg i,by show (i : ℤ) < 64; omega⟩
  exact sweepSemaphore_untouched (h i hi)

/-- A kill that finds nothing to do and all locks open. -/
theorem killProcess_idle {p : Process} {f : ℤ} {h : pid ≠ notUsed} (hs : s.Sane)
    (hp : s.kernel.processes pid = some p) (hth : p.currentThread ≠ pid) (hm : Stored p)
    (hf : s.foreground = some f) (hfne : f ≠ pid) (hv : (s.kernel.mutexes adminMutex).value ≠ locked)
    (hv₁ : (s.kernel.mutexes 1).value ≠ locked)
    (hmutexes : ∀ i, InMutexes i → (s.kernel.mutexes i).Untouched pid)
    (hsemaphores : ∀ i, InSemaphores i → (s.kernel.semaphores i).Untouched pid) :
    ∃ s', killProcess pid h s = .ok ((),s') := by
  unfold killProcess cleanUp removePidFromMutexes removePidFromSemaphores
  rw [get_bind]
  simp only [hp]
  rw [modify_bind]
  generalize hx : ({ s with kernel := s.kernel.changeChildrenToOrphan pid p.ppid } : Registry) = x
  have hpass : Passes s x := by
    rw [← hx]
    exact changeChildrenToOrphan_passes
  have ho := hs.ordered.passes hpass
  have hmx : x.kernel.mutexes = s.kernel.mutexes := by rw [← hx]; rfl
  have hsx : x.kernel.semaphores = s.kernel.semaphores := by rw [← hx]; rfl
  have hfx : x.foreground = some f := by rw [← hx]; exact hf
  have hp' : x.kernel.processes pid = some (if p.ppid = pid then { p with ppid := p.ppid } else p) := by
    rw [← hx]
    exact congrArg (Option.map _) hp
  have hm' : Stored (if p.ppid = pid then { p with ppid := p.ppid } else p) := by
    split <;> exact hm
  have hthread : x.currentThread pid = p.currentThread := by
    have hcur : x.currentThread pid = s.currentThread pid := hpass.records.currentThread
    rw [hcur]
    show (Option.map _ (s.kernel.processes pid)).getD _ = _
    rw [hp]
    rfl
  have hleave : leaveForeground pid x = .ok ((),x) := by
    unfold leaveForeground
    rw [get_bind]
    simp only [hfx,if_neg hfne]
    rfl
  rw [← hmx] at hv hv₁ hmutexes
  rw [← hsx] at hsemaphores
  -- both sweeps leave the lock that they have taken
  have hfirst : removeFromMutexes ⟨pid,none,h⟩ ⟨pid,p.currentThread⟩ x = .ok ((),{ x with
      kernel := x.kernel.lockSlot adminMutex unlocked ⟨pid,p.currentThread⟩ }) :=
    removeFromMutexes_idle ho hth hv hmutexes
  have h0 : 0 ≤ adminMutex := le_rfl
  obtain ⟨hoy,hgate⟩ := ho.lockSlot (t := ⟨pid,p.currentThread⟩) h0 (by decide) hv
  have hv₁' : ((x.kernel.lockSlot adminMutex unlocked ⟨pid,p.currentThread⟩).mutexes 1).value ≠
      locked := by
    rwa [lockSlot_of_ne (by decide)]
  have hsecond : removeFromSemaphores ⟨pid,none,h⟩ ⟨pid,p.currentThread⟩ _ = _ :=
    removeFromSemaphores_idle hoy hv₁' hsemaphores
  obtain ⟨hoz,-⟩ := hoy.lockSlot (t := ⟨pid,p.currentThread⟩) (by decide) le_rfl hv₁'
  have hthread' : currentThread pid { x with
      kernel := x.kernel.lockSlot adminMutex unlocked ⟨pid,p.currentThread⟩ } = p.currentThread :=
    hthread
  rw [bind_of_ok hleave,get_bind,hthread,bind_of_ok hfirst,get_bind,hthread',bind_of_ok hsecond]
  have hheap : HeapOk x.heap := by
    rw [hpass.heap]
    exact hs.heap
  refine removeProcess_returns (s := _) ⟨⟨hoz,?_⟩,fun _ _ => rfl,rfl⟩ hheap hp' hm'
  show Mutex.HeldBy ((Kernel.lockSlot _ _ _ _).mutexes adminMutex) none
  rw [lockSlot_of_ne (by decide)]
  exact hgate

end Registry

namespace Registry
variable {s : Registry}

def onlyRecord (address : ℕ) : Process :=
  ⟨1,0,fun i => if i = 0 then some ⟨.ready,-1,base⟩ else none,address⟩

def onlyProcess (address : ℕ) : ℤ → Option Process := fun pid =>
  if pid = 2 then some (onlyRecord address) else none

theorem onlyRecord_stored {address : ℕ} (ha : InArena address) : Stored (onlyRecord address) := by
  refine ⟨ha,fun i thread hi => ?_⟩
  simp only [onlyRecord] at hi
  split at hi
  · cases hi
    exact ⟨le_rfl,by decide⟩
  · cases hi

theorem Reachable.served (h : s.Reachable) : ∃ heap address, Reachable { s with heap := heap } ∧
    InArena address ∧ isAllocatedPage heap address = some true := by
  obtain ⟨heap,n,hx,hok,hn,hle,ha⟩ := h.sane.heap.serves
  refine ⟨heap,nodeBase n,?_,(base_mem_block hn hle).1,hok.isAllocatedPage_base hn hle ha⟩
  obtain rfl | ⟨r,t,hr,ht,rfl⟩ := hx
  · exact h
  · apply h.move (l := .heap r)
    show (if r.Valid then _ else none) = _
    rw [if_pos hr,ht]
    rfl

theorem bootMutex_untouched {i pid : ℤ} (hp : 0 < pid) : (bootMutex i).Untouched pid := by
  have hlist : ∀ j < maxBlocked, ((bootMutex i).list.blocked j).pid ≠ pid := by
    intro j hj
    have hfree : (clearedMutex.list.blocked j).pid = notUsed := congrArg ThreadId.pid (if_pos hj)
    rw [bootMutex_list,hfree]
    exact (used_of_pos hp 0).symm
  have hnot : (-1 : ℤ) ≠ pid := by omega
  refine ⟨?_,?_,hlist⟩
  · unfold bootMutex
    split
    · exact ne_of_lt hp
    · split
      · exact ne_of_lt hp
      · split
        · exact ne_of_lt hp
        · exact hnot
  · intro hl
    have hpid : (bootMutex i).lockProcess.pid = pid := congrArg ThreadId.pid hl
    refine hnot (Eq.trans ?_ hpid)
    unfold bootMutex
    split
    · rfl
    · split
      · rfl
      · split <;> rfl

theorem clearedSemaphore_untouched {pid : ℤ} (hp : 0 < pid) : clearedSemaphore.Untouched pid := by
  have hnot : (-1 : ℤ) ≠ pid := by omega
  refine ⟨hnot,fun j hj => ?_⟩
  have hfree : (clearedSemaphore.list.blocked j).pid = -1 := congrArg ThreadId.pid (if_pos hj)
  rw [hfree]
  exact hnot

end Registry

namespace Mutex
variable {pid : ℤ} {m m' m₁ : Mutex} {t x : ThreadId}

def HeldIn (pid : ℤ) (m : Mutex) : Prop := ∃ w ∈ m.holder, w.pid = pid

structure CleanedUp (pid : ℤ) (m m' : Mutex) : Prop where
  creator : m'.creator.pid ≠ pid
  holder : m'.creator.pid ≠ notUsed → ¬ m'.HeldIn pid
  waiters : ∀ w ∈ m'.list.waiters, w.pid ≠ pid
  givenUp : m.creator.pid ≠ notUsed → m.HeldIn pid →
    m'.value = unlocked ∨ ∃ w ∈ m.list.waiters, w.pid ≠ pid ∧ m'.holder = some w
  others : m.creator.pid ≠ notUsed → m.creator.pid ≠ pid → ¬ m.HeldIn pid →
    m'.holder = m.holder ∧ m'.list.waiters = m.list.waiters.filter (fun w => w.pid ≠ pid)

/-- What a kill in the name of `t` is up to: what the process has created it has created as `t`, and
what it holds it holds under its pid for a thread, or goes to another process. -/
structure Clears (t : ThreadId) (m : Mutex) : Prop where
  created : m.creator.pid = t.pid →
    m.creator = t ∧ (m.HeldIn t.pid → ∃ w ∈ m.list.waiters.getLast?, w.pid ≠ t.pid)
  held : m.creator.pid ≠ notUsed → m.creator.pid ≠ t.pid → m.HeldIn t.pid →
    m.lockProcess = ⟨t.pid,t.pid⟩ ∧ ∀ w ∈ m.list.waiters.head?, w.pid ≠ t.pid

theorem heldIn_iff : m.HeldIn pid ↔ m.value = locked ∧ m.lockProcess.pid = pid := by
  unfold HeldIn holder
  by_cases hv : m.value = locked
  · rw [if_pos hv]
    simp [hv]
  · rw [if_neg hv]
    simp [hv]

theorem holder_locked (h : m.value = locked) : m.holder = some m.lockProcess := if_pos h

theorem unlocked_ne_locked : unlocked ≠ locked := by decide

theorem Released.cleanedUp (h : m.Released m') (hc : m.creator = t) (ht : 0 < t.pid) :
    m.CleanedUp t.pid m' ↔ m.Clears t := by
  have hne : m'.creator.pid ≠ t.pid := by
    rw [h.creator]
    exact (Registry.used_of_pos ht t.thread).symm
  have hgiven : (m.HeldIn t.pid → m'.value = unlocked ∨
        ∃ w ∈ m.list.waiters, w.pid ≠ t.pid ∧ m'.holder = some w) ↔
      (m.HeldIn t.pid → ∃ w ∈ m.list.waiters.getLast?, w.pid ≠ t.pid) := by
    refine imp_congr_right (fun hh => ?_)
    have hl : m'.value = locked := h.value.trans (heldIn_iff.mp hh).1
    rw [holder_locked hl,hl,h.lockProcess,or_iff_right unlocked_ne_locked.symm]
    cases hw : m.list.waiters.getLast? with
    | none =>
      rw [List.getLast?_eq_none_iff.mp hw]
      simp
    | some w =>
      have hmem : w ∈ m.list.waiters := List.mem_of_getLast? hw
      simp only [Option.getD_some,Option.some.injEq,Option.mem_def]
      constructor
      · rintro ⟨w',-,hp,rfl⟩
        exact ⟨_,rfl,hp⟩
      · rintro ⟨w',rfl,hp⟩
        exact ⟨w,hmem,hp,rfl⟩
  have hpid : m.creator.pid = t.pid := congrArg ThreadId.pid hc
  constructor
  · intro hx
    exact ⟨fun _ => ⟨hc,hgiven.mp (hx.givenUp (by rw [hpid]; exact Registry.used_of_pos ht t.thread))⟩,
      fun _ hne => absurd hpid hne⟩
  · intro hx
    refine ⟨hne,fun hu => absurd h.creator hu,?_,fun _ => hgiven.mpr (hx.created hpid).2,
      fun _ hne => absurd hpid hne⟩
    rw [h.waiters]
    exact fun w hw => absurd hw List.not_mem_nil

theorem Cleaned.cleanedUp (h : m.Cleaned t m') (hok : m.Ok) (ht : 0 < t.pid) :
    m.CleanedUp t.pid m' ↔ m.Clears t := by
  cases h with
  | released hc hr => exact hr.cleanedUp hc ht
  | swept hc hg hcreator hv hl hw =>
    rename_i m₁
    have hwaiters : ∀ w ∈ m'.list.waiters, w.pid ≠ t.pid := by
      intro w hmem
      rw [hw] at hmem
      simpa using (List.mem_filter.mp hmem).2
    by_cases hpid : m.creator.pid = t.pid
    · exact ⟨fun hx => absurd (hcreator ▸ hpid) hx.creator,fun hx => absurd (hx.created hpid).1 hc⟩
    have hne : m'.creator.pid ≠ t.pid := by rwa [hcreator]
    have hheld : m'.HeldIn t.pid ↔ m₁.HeldIn t.pid := by
      rw [heldIn_iff,heldIn_iff,hv,hl]
    have hholder : m'.holder = m₁.holder := by
      unfold holder
      rw [hv,hl]
    unfold GaveUp at hg
    by_cases hx : m.creator.pid ≠ notUsed ∧ m.lockProcess = ⟨t.pid,t.pid⟩
    · rw [if_pos hx] at hg
      have hin : m.HeldIn t.pid ↔ m.value = locked := by
        rw [heldIn_iff,hx.2]
        simp
      cases hg with
      | free hp =>
        have hnil : m.list.waiters = [] :=
          hok.counted.waiters_nil.mpr (hok.counted.pop_none.mp hp)
        refine iff_of_true ⟨hne,fun _ hh => ?_,hwaiters,fun _ _ => Or.inl hv,fun _ _ hh => ⟨?_,hw⟩⟩
          ⟨fun he => absurd he hpid,fun _ _ _ => ⟨hx.2,fun w hmem => ?_⟩⟩
        · exact absurd ((heldIn_iff.mp hh).1.symm.trans hv) unlocked_ne_locked.symm
        · rw [holder_open (fun hlocked => hh (hin.mpr hlocked)),
            holder_open (by rw [hv]; exact unlocked_ne_locked)]
        · rw [hnil] at hmem
          cases hmem
      | handed hp =>
        rename_i w l
        have hcons : m.list.waiters = w::l.waiters := BlockedList.waiters_pop hp
        have hlocked : m.value = locked := by
          by_contra hopen
          have hnil := hok.counted.waiters_nil.mpr (hok.idle hopen)
          rw [hcons] at hnil
          cases hnil
        have hhead : (∀ x ∈ m.list.waiters.head?, x.pid ≠ t.pid) ↔ w.pid ≠ t.pid := by
          rw [hcons]
          simp
        have hnew : m'.HeldIn t.pid ↔ w.pid = t.pid := by
          rw [hheld,heldIn_iff]
          exact and_iff_right hlocked
        constructor
        · intro hy
          refine ⟨fun he => absurd he hpid,fun _ _ _ => ⟨hx.2,hhead.mpr (fun he => ?_)⟩⟩
          exact hy.holder (by rw [hcreator]; exact hx.1) (hnew.mpr he)
        · intro hy
          have hw' := hhead.mp (hy.held hx.1 hpid (hin.mpr hlocked)).2
          refine ⟨hne,fun _ hh => hw' (hnew.mp hh),hwaiters,fun _ _ => Or.inr ⟨w,?_,hw',?_⟩,
            fun _ _ hh => absurd (hin.mpr hlocked) hh⟩
          · rw [hcons]
            exact List.mem_cons_self
          · rw [hholder]
            exact holder_locked hlocked
    · rw [if_neg hx] at hg
      subst hg
      constructor
      · intro hy
        refine ⟨fun he => absurd he hpid,fun hu _ hh => ?_⟩
        exact absurd (hheld.mpr hh) (hy.holder (by rwa [hcreator]))
      · intro hy
        have hnot : m₁.creator.pid ≠ notUsed → ¬ m₁.HeldIn t.pid := by
          intro hu hh
          exact hx ⟨hu,(hy.held hu hpid hh).1⟩
        refine ⟨hne,fun hu hh => ?_,hwaiters,fun hu hh => absurd hh (hnot hu),
          fun _ _ _ => ⟨hholder,hw⟩⟩
        rw [hcreator] at hu
        exact hnot hu (hheld.mp hh)

/-- A mutex that is open at the end, and was not held by another process. -/
theorem cleanedUp_open (hok : m.Ok) (hc : m'.creator.pid ≠ pid) (h : m'.HeldBy none)
    (hx : m.value = locked → m.lockProcess.pid = pid) : m.CleanedUp pid m' := by
  have hnone : m'.holder = none := holder_open (by rw [h.2]; exact unlocked_ne_locked)
  have hnil : m'.list.waiters = [] := h.1.counted.waiters_nil.mpr h.1.quantity
  refine ⟨hc,fun _ hh => ?_,?_,fun _ _ => Or.inl h.2,fun _ _ hh => ?_⟩
  · obtain ⟨w,hw,-⟩ := hh
    rw [hnone] at hw
    cases hw
  · rw [hnil]
    exact fun w hw => absurd hw List.not_mem_nil
  · have hopen : m.value ≠ locked := fun hl => hh (heldIn_iff.mpr ⟨hl,hx hl⟩)
    rw [hnone,hnil,holder_open hopen,hok.counted.waiters_nil.mpr (hok.idle hopen)]
    exact ⟨rfl,rfl⟩

/-- The lock of the semaphores, behind which a kill puts its victim once more. -/
theorem cleanedUp_semaphoreMutex (hok : m.Ok) (ht : 0 < t.pid) (hc : m.creator = ⟨0,0⟩)
    (hc' : m'.creator = ⟨0,0⟩) (h : m.Cleaned t m₁) (hopened : m₁.value ≠ locked → m'.HeldBy none)
    (hshut : m₁.value = locked → m'.ShutFor t) : m.CleanedUp t.pid m' ↔
      m.value = unlocked ∨ m.lockProcess = ⟨t.pid,t.pid⟩ ∧ m.list.waiters = [] := by
  have hused : m.creator.pid ≠ notUsed := by
    rw [hc]
    decide
  have hne : m.creator ≠ t := by
    intro he
    rw [← he,hc] at ht
    exact absurd ht (lt_irrefl 0)
  have hpid : m'.creator.pid ≠ t.pid := by
    rw [hc']
    exact ne_of_lt ht
  have hvalue : m₁.value ≠ locked ↔
      m.value = unlocked ∨ m.lockProcess = ⟨t.pid,t.pid⟩ ∧ m.list.waiters = [] := by
    cases h with
    | released he => exact absurd he hne
    | swept _ hg _ hv _ _ =>
      rw [hv]
      unfold GaveUp at hg
      split at hg
      · rename_i hx
        cases hg with
        | free hp =>
          have hnil := hok.counted.waiters_nil.mpr (hok.counted.pop_none.mp hp)
          exact iff_of_true unlocked_ne_locked (Or.inr ⟨hx.2,hnil⟩)
        | handed hp =>
          have hcons := BlockedList.waiters_pop hp
          have hlocked : m.value = locked := by
            by_contra hopen
            have hnil := hok.counted.waiters_nil.mpr (hok.idle hopen)
            rw [hcons] at hnil
            cases hnil
          refine iff_of_false (fun hy => hy hlocked) ?_
          rw [hlocked,hcons]
          rintro (hy | hy)
          · exact unlocked_ne_locked hy.symm
          · cases hy.2
      · rename_i hx
        subst hg
        constructor
        · exact fun hopen => Or.inl (hok.open_value hopen)
        · rintro (hopen | hy)
          · rw [hopen]
            exact unlocked_ne_locked
          · exact absurd ⟨hused,hy.1⟩ hx
  rw [← hvalue]
  constructor
  · intro hx hl
    obtain ⟨hv,hy | hy⟩ := hshut hl
    · refine hx.holder ?_ (heldIn_iff.mpr ⟨hv,by rw [hy]⟩)
      rw [hc']
      decide
    · exact hx.waiters t hy rfl
  · intro hopen
    refine cleanedUp_open hok hpid (hopened hopen) (fun hl => ?_)
    obtain hy | hy := hvalue.mp hopen
    · exact absurd (hy.symm.trans hl) unlocked_ne_locked
    · rw [hy.1]

end Mutex

theorem Semaphore.Cleaned.creator_iff {x x' : Semaphore} {t : ThreadId} (h : x.Cleaned t x')
    (ht : 0 < t.pid) :
    x'.creator.pid ≠ t.pid ↔ (x.creator.pid = t.pid → x.creator.thread = t.thread) := by
  rw [h.creator]
  split
  · rename_i hc
    refine iff_of_true (Registry.used_of_pos ht t.thread).symm (fun _ => by rw [hc])
  · rename_i hc
    constructor
    · exact fun hne he => absurd he hne
    · intro hthread he
      refine hc ?_
      cases hx : x.creator with
      | mk p th =>
        have h1 := hthread he
        rw [hx] at he h1
        cases t
        cases he
        cases h1
        rfl

namespace Registry
variable {s s' s₁ s₂ : Registry} {i pid : ℤ} {t : ThreadId} {u : Unit} {P : Mutex → Prop}
  {hne : pid ≠ notUsed}

/-- A process whose record is in the table, in memory that has been served. -/
structure Live (pid : ℤ) (s : Registry) : Prop where
  pos : 0 < pid
  record : ∃ p, s.kernel.processes pid = some p ∧ isAllocatedPage s.heap p.address = some true

structure CleanedUp (pid : ℤ) (s s' : Registry) : Prop where
  mutexes : ∀ i, InMutexes i → (s.kernel.mutexes i).CleanedUp pid (s'.kernel.mutexes i)
  creators : ∀ i, InSemaphores i → (s'.kernel.semaphores i).creator.pid ≠ pid
  waiters : ∀ i, InSemaphores i → ∀ w ∈ (s'.kernel.semaphores i).list.waiters, w.pid ≠ pid

/-- No thread but the current one has created anything, nothing is held under another thread than
the pid, and the lock of the semaphores is open when it is needed. -/
structure Clears (pid : ℤ) (s : Registry) : Prop where
  mutexes : ∀ i, InMutexes i → i ≠ adminMutex → i ≠ s.semaphoreMutex →
    (s.kernel.mutexes i).Clears ⟨pid,s.currentThread pid⟩
  semaphoreMutex : (s.kernel.mutexes s.semaphoreMutex).value = unlocked ∨
    (s.kernel.mutexes s.semaphoreMutex).lockProcess = ⟨pid,pid⟩ ∧
      (s.kernel.mutexes s.semaphoreMutex).list.waiters = []
  semaphores : ∀ i, InSemaphores i → (s.kernel.semaphores i).creator.pid = pid →
    (s.kernel.semaphores i).creator.thread = s.currentThread pid

/-- The sweep over the mutexes leaves none that the victim has created. -/
theorem MutexesCleaned.disowned (h : MutexesCleaned t s s') (ho : Ordered s) (ht : 0 < t.pid) :
    Disowned t s' := by
  intro i hi
  by_cases h0 : i = adminMutex
  · subst h0
    exact (h.toPasses.guarded ho.guarded).creator_ne le_rfl (by decide) ht
  · intro hc
    cases h.slots i hi h0 with
    | released _ hr =>
      have hpid := hr.creator
      rw [hc] at hpid
      exact used_of_pos ht t.thread hpid
    | swept hn _ hm => exact hn (hm.symm.trans hc)

structure Killed (t : ThreadId) (s s' : Registry) : Prop where
  ordered : Ordered s'
  slots : ∀ i, InMutexes i → i ≠ adminMutex → i ≠ 1 →
    (s.kernel.mutexes i).Cleaned t (s'.kernel.mutexes i)
  admin : (s'.kernel.mutexes adminMutex).HeldBy none
  unshut : ∀ w : ThreadId, w.pid ≠ t.pid → ¬ (s.kernel.mutexes adminMutex).ShutFor w
  entry : ∃ m, (s.kernel.mutexes 1).Cleaned t m ∧
    (m.value ≠ locked → (s'.kernel.mutexes 1).HeldBy none) ∧
    (m.value = locked → (s'.kernel.mutexes 1).ShutFor t)
  semaphores : ∀ i, InSemaphores i → (s.kernel.semaphores i).Cleaned t (s'.kernel.semaphores i)

theorem cleanUp_killed {h : pid ≠ notUsed} (ho : Ordered s) (hl : Live pid s)
    (hx : Kills.cleanUp mutexDownFor pid h s = .ok (u,s')) :
    Killed ⟨pid,s.currentThread pid⟩ s s' := by
  have ht : 0 < (⟨pid,s.currentThread pid⟩ : ThreadId).pid := hl.pos
  have hused := used_of_pos ht (s.currentThread pid)
  unfold Kills.cleanUp at hx
  rw [get_bind] at hx
  obtain ⟨⟨⟩,s₁,hmutexes,hx⟩ := bind_ok.mp hx
  rw [get_bind] at hx
  obtain ⟨⟨⟩,s₂,hsemaphores,hx⟩ := bind_ok.mp hx
  have hm : MutexesCleaned ⟨pid,s.currentThread pid⟩ s s₁ := removeFromMutexes_cleans ho ht hmutexes
  have hthread : s₁.currentThread pid = s.currentThread pid := hm.records.currentThread
  rw [hthread] at hsemaphores
  have ho₁ := ho.passes hm.toPasses
  have hd := hm.disowned ho ht
  -- the record of the process is where it was, and `adminMutex` has to be open for its end
  obtain ⟨p,hp,ha⟩ := hl.record
  have hend : ∀ P, Survives ⟨pid,s.currentThread pid⟩ P → P (s₁.kernel.mutexes adminMutex) →
      SemaphoresCleaned ⟨pid,s.currentThread pid⟩ P s₁ s₂ := fun P hP hgate =>
    removeFromSemaphores_cleans hP ⟨ho₁,hgate⟩ ht hd hsemaphores
  have hrecord : Passes s s₂ → ∃ p', s₂.kernel.processes pid = some p' ∧
      isAllocatedPage s₂.heap p'.address = some true := by
    intro hpass
    obtain ⟨p',hp',he⟩ := hpass.records.address hp
    exact ⟨p',hp',by rw [hpass.heap,he,ha]⟩
  have hshut : ∀ x ≠ (⟨pid,s.currentThread pid⟩ : ThreadId),
      ¬ (s₁.kernel.mutexes adminMutex).ShutFor x := by
    intro x hne hshut
    have hs := hend _ (survives_shutFor hused hne) hshut
    obtain ⟨p',hp',ha'⟩ := hrecord (hm.toPasses.trans hs.toPasses)
    exact removeProcess_open hs.cleaning.toOrdered hp' ha' hx hs.cleaning.gate.1
  obtain hopen | ⟨x,hne,hx'⟩ := hm.gate
  · have hs := hend _ (survives_heldBy hused (Or.inl rfl)) hopen
    obtain ⟨p',hp',-⟩ := hrecord (hm.toPasses.trans hs.toPasses)
    have hf : Finished s₂ s' := removeProcess_finished ⟨hs.cleaning,fun _ _ => rfl,rfl⟩ hp' hx
    refine ⟨hf.toOrdered,fun i hi h0 h1 => ?_,hf.gate,fun w hw hshut' => ?_,
      ⟨_,hm.slots 1 (by decide) (by decide),?_,?_⟩,fun i hi => ?_⟩
    · rw [hf.mutexes i h0,hs.mutexes i h0 h1]
      exact hm.slots i hi h0
    · exact hshut w (fun he => hw (congrArg ThreadId.pid he)) (hm.shut w hw hshut')
    · rw [hf.mutexes 1 (by decide)]
      exact hs.opened
    · rw [hf.mutexes 1 (by decide)]
      exact hs.shut
    · rw [hf.semaphores,← hm.semaphores]
      exact hs.semaphores i hi
  · exact absurd hx' (hshut x hne)

theorem killProcessFor_killed {h : pid ≠ notUsed} (ho : Ordered s) (hl : Live pid s)
    (hx : killProcessFor pid h s = .ok (u,s')) : Killed ⟨pid,s.currentThread pid⟩ s s' := by
  obtain ⟨p,hp,ha⟩ := hl.record
  unfold killProcessFor Kills.killProcess at hx
  rw [get_bind] at hx
  simp only [hp] at hx
  rw [modify_bind] at hx
  obtain ⟨⟨⟩,s₁,hleave,hx⟩ := bind_ok.mp hx
  obtain ⟨hpass,hm,hs⟩ := leaveForeground_passes hleave
  have hpass : Passes s s₁ := changeChildrenToOrphan_passes.trans hpass
  have hthread : s₁.currentThread pid = s.currentThread pid := hpass.records.currentThread
  obtain ⟨p',hp',he⟩ := hpass.records.address hp
  have hlive : Live pid s₁ := ⟨hl.pos,p',hp',by rw [hpass.heap,he,ha]⟩
  have hk := cleanUp_killed (ho.passes hpass) hlive hx
  rw [hthread] at hk
  have hmutexes : s₁.kernel.mutexes = s.kernel.mutexes := hm
  have hsemaphores : s₁.kernel.semaphores = s.kernel.semaphores := hs
  obtain ⟨h1,h2,h3,h4,h5,h6⟩ := hk
  rw [hmutexes] at h2 h4 h5
  rw [hsemaphores] at h6
  exact ⟨h1,h2,h3,h4,h5,h6⟩

theorem Killed.cleanedUp_admin (h : Killed t s s') (ho : Ordered s) (ht : 0 < t.pid) :
    (s.kernel.mutexes adminMutex).CleanedUp t.pid (s'.kernel.mutexes adminMutex) := by
  refine Mutex.cleanedUp_open (ho.sound _ (by decide)) ?_ h.admin (fun hl => ?_)
  · have hc : (s'.kernel.mutexes adminMutex).creator = ⟨0,0⟩ :=
      h.ordered.guarded.creator _ le_rfl (by decide)
    rw [hc]
    exact ne_of_lt ht
  · by_contra hne
    exact h.unshut _ hne ⟨hl,Or.inl rfl⟩

theorem Killed.cleanedUp_entry (h : Killed t s s') (ho : Ordered s) (ht : 0 < t.pid) :
    (s.kernel.mutexes 1).CleanedUp t.pid (s'.kernel.mutexes 1) ↔
      (s.kernel.mutexes 1).value = unlocked ∨ (s.kernel.mutexes 1).lockProcess = ⟨t.pid,t.pid⟩ ∧
        (s.kernel.mutexes 1).list.waiters = [] := by
  obtain ⟨m,hm,hopened,hshut⟩ := h.entry
  exact Mutex.cleanedUp_semaphoreMutex (ho.sound 1 (by decide)) ht
    (ho.guarded.creator 1 (by decide) (by decide))
    (h.ordered.guarded.creator 1 (by decide) (by decide)) hm hopened hshut

theorem kill_cleanup (hr : s.Reachable) (hl : Live pid s)
    (h : killProcessFor pid hne s = .ok ((),s')) : CleanedUp pid s s' ↔ Clears pid s := by
  have ho := hr.sane.ordered
  have hk := killProcessFor_killed ho hl h
  have ht : 0 < (⟨pid,s.currentThread pid⟩ : ThreadId).pid := hl.pos
  have hentry := hk.cleanedUp_entry ho ht
  constructor
  · intro hx
    refine ⟨fun i hi h0 h1 => ?_,?_,fun i hi => ?_⟩
    · rw [ho.semaphoreMutex] at h1
      exact ((hk.slots i hi h0 h1).cleanedUp (ho.sound i hi) ht).mp (hx.mutexes i hi)
    · rw [ho.semaphoreMutex]
      exact hentry.mp (hx.mutexes 1 (by decide))
    · exact ((hk.semaphores i hi).creator_iff ht).mp (hx.creators i hi)
  · intro hx
    obtain ⟨hmutexes,hsem,hsemaphores⟩ := hx
    rw [ho.semaphoreMutex] at hmutexes hsem
    refine ⟨fun i hi => ?_,fun i hi => ((hk.semaphores i hi).creator_iff ht).mpr (hsemaphores i hi),
      fun i hi w hw => ?_⟩
    · by_cases h0 : i = adminMutex
      · subst h0
        exact hk.cleanedUp_admin ho ht
      · by_cases h1 : i = 1
        · subst h1
          exact hentry.mpr hsem
        · exact ((hk.slots i hi h0 h1).cleanedUp (ho.sound i hi) ht).mpr (hmutexes i hi h0 h1)
    · rw [(hk.semaphores i hi).waiters] at hw
      simpa using (List.mem_filter.mp hw).2

/-- The process `2` is killed while its first thread has the lock of the channels, which stays
shut. -/
theorem kill_cleanup_held : ∃ s s' : Registry, s.Reachable ∧ Live 2 s ∧
    killProcessFor 2 (by decide) s = .ok ((),s') ∧ ¬ CleanedUp 2 s s' := by
  obtain ⟨s₀,hm,hb⟩ := main_booted
  obtain ⟨heap,address,hreach,harena,hserved⟩ := (Reachable.boot hm).served
  have hreach : Reachable { s₀ with
      kernel := { s₀.kernel with processes := onlyProcess address }, heap := heap } :=
    hreach.move (l := .table (.other { s₀.kernel with processes := onlyProcess address })) rfl
  have hreach : Reachable { s₀ with
      kernel := { s₀.kernel with processes := onlyProcess address }
      heap := heap
      foreground := some 1 } :=
    hreach.move (l := .rest { s₀ with foreground := some 1 }) rfl
  have hopen : ∀ i, InMutexes i → (s₀.kernel.mutexes i).value ≠ locked := by
    intro i hi
    rw [hb.mutexes i hi,bootMutex_value]
    decide
  have hvalid : isValidMutex { s₀.kernel with processes := onlyProcess address } 2 :=
    ⟨by decide,by decide,by
      show (s₀.kernel.mutexes 2).creator.pid ≠ notUsed
      rw [hb.guarded.creator 2 (by decide) le_rfl]
      decide⟩
  have hdown := mutexDown_take (t := ⟨2,0⟩) hvalid (hopen 2 (by decide))
  have hreach := hreach.down (by decide) hdown
  generalize hs : ({ s₀ with
      kernel := take { s₀.kernel with processes := onlyProcess address } 2 ⟨2,0⟩
      heap := heap
      foreground := some 1 } : Registry) = s at hreach
  have hmutex : s.kernel.mutexes 2 =
      { s₀.kernel.mutexes 2 with value := locked, lockProcess := ⟨2,0⟩ } := by
    rw [← hs]
    show marked { s₀.kernel with processes := onlyProcess address } 2 _ 2 = _
    rw [marked_self]
    rfl
  have hp : s.kernel.processes 2 = onlyProcess address 2 := by rw [← hs]; rfl
  have huntouched : ∀ i, InMutexes i → (s.kernel.mutexes i).Untouched 2 := by
    intro i hi
    by_cases h2 : i = 2
    · subst h2
      obtain ⟨hc,-,hw⟩ := bootMutex_untouched (i := 2) (show (0 : ℤ) < 2 by decide)
      rw [hmutex,hb.mutexes 2 hi]
      have hne : (⟨2,0⟩ : ThreadId) ≠ ⟨2,2⟩ := by decide
      exact ⟨hc,hne,hw⟩
    · obtain ⟨hc,hl,hw⟩ := bootMutex_untouched (i := i) (show (0 : ℤ) < 2 by decide)
      rw [← hs]
      obtain ⟨hlist,-,-,hlock,hcreator⟩ := marked_of_ne (k := { s₀.kernel with
        processes := onlyProcess address }) (m := { s₀.kernel.mutexes 2 with
          value := locked, lockProcess := ⟨2,0⟩ }) h2
      have hboot : s₀.kernel.mutexes i = bootMutex i := hb.mutexes i hi
      refine ⟨?_,?_,?_⟩
      · show (marked _ _ _ i).creator.pid ≠ 2
        obtain hx | ⟨-,hx⟩ := hcreator
        · rw [hx]
          exact hboot ▸ hc
        · rw [hx]
          exact show (0 : ℤ) ≠ 2 by decide
      · show (marked _ _ _ i).lockProcess ≠ _
        rw [hlock]
        exact hboot ▸ hl
      · show ∀ j < maxBlocked, ((marked _ _ _ i).list.blocked j).pid ≠ 2
        rw [hlist]
        exact hboot ▸ hw
  have hsemaphores : ∀ i, InSemaphores i → (s.kernel.semaphores i).Untouched 2 := by
    intro i hi
    rw [← hs]
    show (s₀.kernel.semaphores i).Untouched 2
    rw [hb.semaphores i hi]
    exact clearedSemaphore_untouched (by decide)
  have hlow : ∀ m, 0 ≤ m → m ≤ 1 → (s.kernel.mutexes m).value ≠ locked := by
    intro m h0 h1
    rw [← hs]
    show (marked _ _ _ m).value ≠ locked
    rw [(marked_of_ne (by omega)).2.1]
    exact hopen m ⟨h0,by unfold maxMutexes; omega⟩
  obtain ⟨s',hkill⟩ := killProcess_idle (h := by decide) hreach.sane hp (show (0 : ℤ) ≠ 2 by decide)
    (onlyRecord_stored harena) (f := 1) (by rw [← hs]) (by decide) (hlow _ le_rfl (by decide))
    (hlow _ (by decide) le_rfl) huntouched hsemaphores
  have hkill := killProcess_extends _ _ _ hkill
  have hlive : Live 2 s := ⟨by decide,_,hp,by rw [← hs]; exact hserved⟩
  refine ⟨s,s',hreach,hlive,hkill,fun hclean => ?_⟩
  have hclears := ((kill_cleanup hreach hlive hkill).mp hclean).mutexes 2 (by decide) (by decide)
    (by rw [hreach.sane.semaphoreMutex]; decide)
  have hheld := hclears.held (by rw [hmutex]; exact hvalid.2.2) (by
      rw [hmutex]
      show (s₀.kernel.mutexes 2).creator.pid ≠ 2
      rw [hb.guarded.creator 2 (by decide) le_rfl]
      decide) (Mutex.heldIn_iff.mpr (by rw [hmutex]; exact ⟨rfl,rfl⟩))
  rw [hmutex] at hheld
  have hne : (⟨2,0⟩ : ThreadId) ≠ ⟨2,2⟩ := by decide
  exact hne hheld.1

end Registry

end ComplexOS
