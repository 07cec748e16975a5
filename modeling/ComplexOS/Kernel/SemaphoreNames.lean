import ComplexOS.Kernel.NamedRuns

/-! # Creations and releases of semaphores on quiet tables

Where nobody waits for a mutex a call comes back as soon as its locks are free. What it
has done to the table of semaphores is read off the inversions.
-/
namespace ComplexOS
open Kernel Call Directory SlotTable

namespace Kernel
variable {k k' : Kernel} {mutex : ℤ} {t : ThreadId} {o : DownOutcome}

theorem getNextSemaphoreAvailable_spec : (k.getNextSemaphoreAvailable = fullList ∧
      ∀ i, InSemaphores i → (k.semaphores i).creator.pid ≠ notUsed) ∨
    (InSemaphores k.getNextSemaphoreAvailable ∧
      (k.semaphores k.getNextSemaphoreAvailable).creator.pid = notUsed) := by
  unfold getNextSemaphoreAvailable
  cases hf : firstFree (fun s : Semaphore => s.creator.pid ≠ notUsed) maxSemaphores.toNat
      (fun i => k.semaphores i) with
  | none =>
    left
    refine ⟨rfl,fun i ⟨h0,h1⟩ => ?_⟩
    lift i to ℕ using h0
    have hlt : i < maxSemaphores.toNat := by omega
    exact firstFree_none (f := fun i : ℕ => k.semaphores i) hf hlt
  | some i =>
    right
    obtain ⟨hlt,hfree⟩ := firstFree_some hf
    exact ⟨inSemaphores_nat hlt,by simpa using hfree⟩

theorem liveSemaphores_full (h : ∀ i, InSemaphores i → (k.semaphores i).creator.pid ≠ notUsed) :
    (k.liveSemaphores : ℤ) = maxSemaphores := by
  have hall : occupied (fun s : Semaphore => s.creator.pid ≠ notUsed) maxSemaphores.toNat
      (fun i => k.semaphores i) = Finset.range maxSemaphores.toNat :=
    Finset.filter_true_of_mem (fun i hi => h i (inSemaphores_nat (Finset.mem_range.mp hi)))
  unfold liveSemaphores
  rw [hall,Finset.card_range]
  rfl

theorem liveSemaphores_disown_le {semaphore : ℤ} :
    (k.disownSemaphore semaphore).liveSemaphores ≤ k.liveSemaphores := by
  apply Finset.card_le_card
  intro i hi
  obtain ⟨hlt,hx⟩ := mem_occupied.mp hi
  replace hx : (Function.update k.semaphores semaphore _ (i : ℤ)).creator.pid ≠ notUsed := hx
  refine mem_occupied.mpr ⟨hlt,?_⟩
  by_cases he : (i : ℤ) = semaphore
  · rw [he,Function.update_self] at hx
    exact absurd rfl hx
  · rw [Function.update_of_ne he] at hx
    exact hx

theorem mutexDown_semaphores (h : k.mutexDown mutex t = some (o,k')) :
    k'.semaphores = k.semaphores := by
  obtain ⟨-,-,rfl⟩ | ⟨-,hr,-⟩ := mutexDown_cases h
  · rfl
  · exact hr.semaphores

theorem mutexUp_semaphores (h : k.mutexUp mutex t = some k') : k'.semaphores = k.semaphores := by
  obtain ⟨-,rfl⟩ | ⟨-,-,hr,-⟩ := mutexUp_cases h
  · rfl
  · exact hr.semaphores

theorem releaseMutexBody_semaphores {b : Bool} (h : k.releaseMutexBody mutex t = some (b,k')) :
    k'.semaphores = k.semaphores := by
  obtain ⟨-,-,rfl⟩ | ⟨-,-,-,hr,-⟩ := releaseMutexBody_cases h
  · rfl
  · exact hr.semaphores

end Kernel

namespace Registry
variable {s s' : Registry} {mutex semaphore pid thread i : ℤ} {t : ThreadId} {name : List UInt8}
  {r : Option ℤ} {b : Bool} {k : Kernel}

theorem getMutex_semaphores (h : getMutex name pid thread s = .ok (r,s')) :
    s'.kernel.semaphores = s.kernel.semaphores := by
  obtain ⟨k,hd,⟨i,-,-,rfl⟩ | ⟨-,k₁,k₂,hc,hu,rfl⟩⟩ := getMutex_ok h
  · exact mutexDown_semaphores hd
  · have hcreate : k₁.semaphores = k.semaphores := by
      obtain ⟨-,-,rfl⟩ | ⟨-,-,-,-,-,-,hs,-⟩ := createMutex_cases hc
      · rfl
      · exact hs
    exact (mutexUp_semaphores hu).trans (hcreate.trans (mutexDown_semaphores hd))

theorem releaseMutex_semaphores (h : releaseMutex pid mutex thread s = .ok (b,s')) :
    s'.kernel.semaphores = s.kernel.semaphores := by
  obtain ⟨k,k₁,k₂,hd,hb,hu,rfl⟩ := releaseMutex_ok h
  exact (mutexUp_semaphores hu).trans
    ((releaseMutexBody_semaphores hb).trans (mutexDown_semaphores hd))

structure CreatedSemaphore (s : Registry) (name : List UInt8) (t : ThreadId) (s' : Registry) :
    Prop where
  room : s.usedSemaphores < maxSemaphores
  slots : ∃ mutex, s'.kernel.semaphores = Function.update s.kernel.semaphores
    s.firstAvailableSemaphore { s.kernel.semaphores s.firstAvailableSemaphore with
      name := fun i => name.getD i ((s.kernel.semaphores s.firstAvailableSemaphore).name i)
      creator := t
      mutex := mutex }
  used : s'.usedSemaphores = s.usedSemaphores+1
  first : s'.firstAvailableSemaphore = s'.kernel.getNextSemaphoreAvailable
  live : t.used → s.CachedFree → s'.kernel.liveSemaphores = s.kernel.liveSemaphores+1

theorem createSemaphore_created (h : createSemaphore pid name thread s = .ok (some i,s')) :
    i = s.firstAvailableSemaphore ∧ CreatedSemaphore s name ⟨pid,thread⟩ s' := by
  obtain ⟨-,hx,-⟩ | ⟨hu,-,m,s₁,hg,⟨-,hx,-⟩ | ⟨mutex,-,hi,rfl⟩⟩ := createSemaphore_ok h
  · cases hx
  · cases hx
  have hsem := getMutex_semaphores hg
  have hrest := getMutex_rest hg
  have hfirst : s₁.firstAvailableSemaphore = s.firstAvailableSemaphore := by
    rw [hrest]
    rfl
  refine ⟨Option.some.inj hi,hu,⟨mutex,?_⟩,?_,rfl,fun hp hf => ?_⟩
  · show Function.update s₁.kernel.semaphores s₁.firstAvailableSemaphore _ = _
    rw [hfirst,hsem]
    show Function.update (Function.update s.kernel.semaphores s.firstAvailableSemaphore _) _ _ = _
    rw [Function.update_idem]
    congr 1
    show ({ Function.update s.kernel.semaphores s.firstAvailableSemaphore _
      s.firstAvailableSemaphore with mutex := mutex } : Semaphore) = _
    rw [Function.update_self]
  · show s₁.usedSemaphores+1 = _
    rw [hrest]
    rfl
  · rw [completeSemaphore_liveSemaphores,liveSemaphores_congr hsem]
    exact (claimSemaphore_liveSemaphores (t := ⟨pid,thread⟩) hp).1 hf

/-- With `adminMutex` free a mutex is got, unless it is new and the counter has run out. -/
theorem getMutex_quiet (hq : s.kernel.Quiet) (hf : (s.kernel.mutexes adminMutex).value ≠ locked) :
    ∃ r k, getMutex name pid thread s = .ok (r,{ s with kernel := k }) ∧ k.Quiet ∧
      (r = none ↔ s.kernel.findMutex name = none ∧
        ¬ (s.kernel.usedMutexes < maxMutexes ∧ name.length < maxName)) := by
  cases hi : s.kernel.findMutex name with
  | some i => exact ⟨_,_,getMutex_hit hq.guarded hf hi,hq.lockSlot,by simp⟩
  | none =>
    obtain ⟨r,k,hk⟩ : ∃ r k, s.kernel.createMutex pid name thread = (r,k) := ⟨_,_,rfl⟩
    refine ⟨_,_,getMutex_miss hq.guarded hf (hq.pop (by decide)) hi hk,
      (hq.createMutex hk).lockSlot,?_⟩
    obtain ⟨rfl,hx,-⟩ | ⟨rfl,hu,hn,-⟩ := createMutex_cases hk
    · exact ⟨fun _ => ⟨rfl,hx⟩,fun _ => rfl⟩
    · exact ⟨fun hx => (by cases hx),fun hx => absurd ⟨hu,hn⟩ hx.2⟩

theorem claimSemaphore_quiet (hq : s.kernel.Quiet) : (claimSemaphore pid name thread s).kernel.Quiet :=
  hq.semaphores

theorem createSemaphore_none (h : ¬ (s.usedSemaphores < maxSemaphores ∧ name.length < maxName)) :
    createSemaphore pid name thread s = .ok (none,s) := by
  unfold createSemaphore
  rw [get_bind,if_neg h]
  rfl

/-- With room and `adminMutex` free a semaphore is created, unless there is no mutex for it. -/
theorem createSemaphore_quiet (t : ThreadId) (hq : s.kernel.Quiet)
    (hf : (s.kernel.mutexes adminMutex).value ≠ locked)
    (hu : s.usedSemaphores < maxSemaphores) (hn : name.length < maxName) :
    ∃ r s', createSemaphore t.pid name t.thread s = .ok (r,s') ∧ s'.kernel.Quiet ∧
      s'.semaphoreMutex = s.semaphoreMutex ∧
      (r = none ↔ s.kernel.findMutex name = none ∧ ¬ s.kernel.usedMutexes < maxMutexes) := by
  obtain ⟨m,k,hg,hquiet,hnone⟩ : ∃ m k, getMutex name t.pid t.thread (claimSemaphore t.pid name t.thread s) =
      .ok (m,{ claimSemaphore t.pid name t.thread s with kernel := k }) ∧ k.Quiet ∧ _ :=
    getMutex_quiet (claimSemaphore_quiet hq) hf
  unfold createSemaphore
  rw [get_bind,if_pos ⟨hu,hn⟩,modify_bind,bind_of_ok hg]
  simp only [hn,and_true] at hnone
  cases m with
  | none => exact ⟨none,_,rfl,hquiet,rfl,hnone⟩
  | some m =>
    refine ⟨some _,_,rfl,hquiet.semaphores,rfl,fun hx => ?_,fun hx => ?_⟩
    · cases hx
    · cases hnone.mpr hx

theorem createSemaphore_waits (t : ThreadId) (hg : s.kernel.Guarded)
    (hl : (s.kernel.mutexes adminMutex).value = locked)
    (hu : s.usedSemaphores < maxSemaphores) (hn : name.length < maxName) :
    ∃ h, createSemaphore t.pid name t.thread s = .error (.waits adminMutex t h) := by
  have hc : (claimSemaphore t.pid name t.thread s).kernel.Guarded := hg.congr (fun _ _ _ => rfl) rfl
  unfold createSemaphore
  rw [get_bind,if_pos ⟨hu,hn⟩,modify_bind,bind_of_error (getMutex_waits hc hl)]
  exact ⟨_,rfl⟩

/-- The semaphores in use are the entries of a directory, nobody waits, and the slot to be
handed out next is free as long as the counter lets a creation pass. -/
structure SemaphoresFiled (s : Registry) (names : List (ℤ × Name)) : Prop extends
    Quiet s.kernel where
  lock : s.semaphoreMutex = 1
  waiters : ∀ i, InSemaphores i → (s.kernel.semaphores i).list.blockedQuantity = 0
  files : Files s.kernel.SemaphoreBears names
  count : (s.kernel.liveSemaphores : ℤ) ≤ s.usedSemaphores
  cached : s.usedSemaphores < maxSemaphores → s.CachedFree

namespace SemaphoresFiled
variable {names : List (ℤ × Name)} {n : Name}

theorem find (h : s.SemaphoresFiled names) : s.kernel.findSemaphore n.1 = some i ↔ (i,n) ∈ names :=
  h.files.find semaphoreBears_searches

theorem kernel (h : s.SemaphoresFiled names) (hq : k.Quiet) (hs : k.semaphores = s.kernel.semaphores) :
    SemaphoresFiled { s with kernel := k } names := by
  have hbears : k.SemaphoreBears = s.kernel.SemaphoreBears := by
    unfold SemaphoreBears
    rw [hs]
  refine ⟨hq,h.lock,fun i hi => ?_,?_,?_,fun hu => ?_⟩
  · show (k.semaphores i).list.blockedQuantity = 0
    rw [hs]
    exact h.waiters i hi
  · show Files k.SemaphoreBears names
    rw [hbears]
    exact h.files
  · show (k.liveSemaphores : ℤ) ≤ _
    rw [liveSemaphores_congr hs]
    exact h.count
  · unfold CachedFree
    simp only [hs]
    exact h.cached hu

theorem created (h : s.SemaphoresFiled names) (hn : ∀ i, (i,n) ∉ names) (ht : t.used)
    (hz : (s.kernel.semaphores s.firstAvailableSemaphore).name n.1.length = 0)
    (hc : CreatedSemaphore s n.1 t s') (hq : s'.kernel.Quiet)
    (hl : s'.semaphoreMutex = s.semaphoreMutex) :
    s'.SemaphoresFiled ((s.firstAvailableSemaphore,n)::names) := by
  obtain ⟨hroom,⟨mutex,hslots⟩,hused,hfirst,hlive⟩ := hc
  obtain ⟨hi,hfree⟩ := h.cached hroom
  have hlive := hlive ht ⟨hi,hfree⟩
  have hcount := h.count
  have hmiss : ∀ j, ¬ s.kernel.SemaphoreBears j n := fun j hb => hn j ((h.files.bears j n).mp hb)
  have hbears : ∀ j m, s'.kernel.SemaphoreBears j m ↔
      j = s.firstAvailableSemaphore ∧ m = n ∨ s.kernel.SemaphoreBears j m := by
    intro j m
    unfold SemaphoreBears
    rw [hslots]
    exact bears_create hi hfree ht (spells_copied.mpr hz)
  refine ⟨hq,hl.trans h.lock,fun i hi => ?_,h.files.insert hmiss hbears,by omega,fun hu => ?_⟩
  · rw [hslots]
    by_cases he : i = s.firstAvailableSemaphore
    · rw [he,Function.update_self]
      exact h.waiters _ (he ▸ hi)
    · rw [Function.update_of_ne he]
      exact h.waiters i hi
  · unfold CachedFree
    rw [hfirst]
    obtain ⟨-,hall⟩ | hfree := getNextSemaphoreAvailable_spec (k := s'.kernel)
    · have hfull := liveSemaphores_full hall
      omega
    · exact hfree

theorem released (h : s.SemaphoresFiled names) (hq : k.Quiet)
    (hs : k.semaphores = (s.kernel.disownSemaphore semaphore).semaphores) :
    SemaphoresFiled { s with kernel := k } (names.filter (fun x => decide (x.1 ≠ semaphore))) := by
  have hslots : k.semaphores = Function.update s.kernel.semaphores semaphore
      { s.kernel.semaphores semaphore with
        creator := { (s.kernel.semaphores semaphore).creator with pid := notUsed } } := hs
  have hcount := h.count
  have hle : k.liveSemaphores ≤ s.kernel.liveSemaphores :=
    (liveSemaphores_congr hs).trans_le liveSemaphores_disown_le
  refine ⟨hq,h.lock,fun i hi => ?_,h.files.erase (fun j m => ?_),?_,fun hu => ?_⟩
  · show (k.semaphores i).list.blockedQuantity = 0
    rw [hslots]
    by_cases he : i = semaphore
    · rw [he,Function.update_self]
      exact h.waiters _ (he ▸ hi)
    · rw [Function.update_of_ne he]
      exact h.waiters i hi
  · unfold SemaphoreBears
    simp only [hslots]
    exact bears_release rfl
  · show (k.liveSemaphores : ℤ) ≤ s.usedSemaphores
    omega
  · obtain ⟨hi,hf⟩ := h.cached hu
    refine ⟨hi,?_⟩
    show (k.semaphores s.firstAvailableSemaphore).creator.pid = _
    rw [hslots]
    by_cases he : s.firstAvailableSemaphore = semaphore
    · rw [he,Function.update_self]
    · rw [Function.update_of_ne he]
      exact hf

end SemaphoresFiled

theorem semaphoreMutex_down (hg : s.kernel.Guarded) (hl : s.semaphoreMutex = 1)
    (hf : (s.kernel.mutexes 1).value ≠ locked) : mutexDown s.semaphoreMutex t s =
      .ok ((),{ s with kernel := s.kernel.lockSlot 1 locked t }) :=
  (congrArg (fun m => mutexDown m t s) hl).trans (mutexDown_guarded hg (by decide) (by decide) hf)

theorem semaphoreMutex_waits (hg : s.kernel.Guarded) (hl : s.semaphoreMutex = 1)
    (hf : (s.kernel.mutexes s.semaphoreMutex).value = locked) : mutexDown s.semaphoreMutex t s =
      .error (.waits s.semaphoreMutex t (s.kernel.mutexes s.semaphoreMutex).lockProcess) :=
  mutexDown_waits (by rw [hl]; exact hg.valid (by decide) (by decide)) hf

theorem getSemaphore_waits (hg : s.kernel.Guarded) (hl : s.semaphoreMutex = 1)
    (hf : (s.kernel.mutexes s.semaphoreMutex).value = locked) :
    ∃ e, getSemaphore name pid thread s = .error e := by
  unfold getSemaphore
  rw [get_bind,bind_of_error (semaphoreMutex_waits hg hl hf)]
  exact ⟨_,rfl⟩

theorem releaseSemaphore_waits (hg : s.kernel.Guarded) (hl : s.semaphoreMutex = 1)
    (hf : (s.kernel.mutexes s.semaphoreMutex).value = locked) :
    ∃ e, releaseSemaphore pid semaphore thread s = .error e := by
  unfold releaseSemaphore
  rw [get_bind,bind_of_error (semaphoreMutex_waits hg hl hf)]
  exact ⟨_,rfl⟩

/-- Giving up the lock comes back on quiet tables. -/
theorem mutexUp_quiet (hq : s.kernel.Quiet) (m : ℤ) (t : ThreadId) : ∃ k, mutexUp m t s =
    .ok ((),{ s with kernel := k }) ∧ k.Quiet ∧ k.semaphores = s.kernel.semaphores := by
  have hk : s.kernel.mutexUp m t = _ := hq.mutexUp
  refine ⟨_,mutexUp_ok.mpr ⟨_,hk,rfl⟩,?_,mutexUp_semaphores hk⟩
  split
  · exact hq.lockSlot
  · exact hq

theorem getSemaphore_hit (hg : s.kernel.Guarded) (hl : s.semaphoreMutex = 1)
    (hf : (s.kernel.mutexes 1).value ≠ locked) (hi : s.kernel.findSemaphore name = some i) :
    getSemaphore name pid thread s =
      .ok (some i,{ s with kernel := s.kernel.lockSlot 1 locked ⟨pid,thread⟩ }) := by
  unfold getSemaphore
  rw [get_bind,bind_of_ok (semaphoreMutex_down hg hl hf),get_bind]
  simp only [show (s.kernel.lockSlot 1 locked ⟨pid,thread⟩).findSemaphore name = some i from hi]
  rfl

/-- A creation under `semaphoreMutex`, which is given up whatever comes out of it. -/
theorem getSemaphore_miss (hg : s.kernel.Guarded) (hl : s.semaphoreMutex = 1)
    (hf : (s.kernel.mutexes 1).value ≠ locked) (hi : s.kernel.findSemaphore name = none)
    (hc : createSemaphore pid name thread
      { s with kernel := s.kernel.lockSlot 1 locked ⟨pid,thread⟩ } = .ok (r,s'))
    (hq : s'.kernel.Quiet) : ∃ k, getSemaphore name pid thread s = .ok (r,{ s' with kernel := k }) ∧
      k.Quiet ∧ k.semaphores = s'.kernel.semaphores := by
  obtain ⟨k,hk,hquiet,hs⟩ := mutexUp_quiet hq s.semaphoreMutex ⟨pid,thread⟩
  refine ⟨k,?_,hquiet,hs⟩
  unfold getSemaphore
  rw [get_bind,bind_of_ok (semaphoreMutex_down hg hl hf),get_bind]
  simp only [show (s.kernel.lockSlot 1 locked ⟨pid,thread⟩).findSemaphore name = none from hi]
  rw [bind_of_ok hc,bind_of_ok hk]
  rfl

theorem getSemaphore_stops {e : Stop} (hg : s.kernel.Guarded) (hl : s.semaphoreMutex = 1)
    (hf : (s.kernel.mutexes 1).value ≠ locked) (hi : s.kernel.findSemaphore name = none)
    (hc : createSemaphore pid name thread
      { s with kernel := s.kernel.lockSlot 1 locked ⟨pid,thread⟩ } = .error e) :
    getSemaphore name pid thread s = .error e := by
  unfold getSemaphore
  rw [get_bind,bind_of_ok (semaphoreMutex_down hg hl hf),get_bind]
  simp only [show (s.kernel.lockSlot 1 locked ⟨pid,thread⟩).findSemaphore name = none from hi]
  exact bind_of_error hc

theorem releaseSemaphore_stops {e : Stop} (hg : s.kernel.Guarded) (hl : s.semaphoreMutex = 1)
    (hf : (s.kernel.mutexes 1).value ≠ locked)
    (hb : releaseSemaphoreBody semaphore ⟨pid,thread⟩
      { s with kernel := s.kernel.lockSlot 1 locked ⟨pid,thread⟩ } = .error e) :
    releaseSemaphore pid semaphore thread s = .error e := by
  unfold releaseSemaphore
  rw [get_bind,bind_of_ok (semaphoreMutex_down hg hl hf)]
  exact bind_of_error hb

theorem releaseSemaphoreBody_waits (hg : s.kernel.Guarded)
    (hl : (s.kernel.mutexes adminMutex).value = locked)
    (hv : s.kernel.isValidSemaphore semaphore ∧ (s.kernel.semaphores semaphore).creator = t) :
    ∃ e, releaseSemaphoreBody semaphore t s = .error e := by
  unfold releaseSemaphoreBody
  rw [get_bind,if_pos hv,bind_of_error (releaseMutex_waits hg hl)]
  exact ⟨_,rfl⟩

/-- The body of a release that gets past its test. -/
theorem releaseSemaphoreBody_quiet (hq : s.kernel.Quiet)
    (hf : (s.kernel.mutexes adminMutex).value ≠ locked) (hp : 0 < t.pid)
    (hw : (s.kernel.semaphores semaphore).list.blockedQuantity = 0)
    (hv : s.kernel.isValidSemaphore semaphore ∧ (s.kernel.semaphores semaphore).creator = t) :
    ∃ k, releaseSemaphoreBody semaphore t s = .ok (true,{ s with kernel := k }) ∧ k.Quiet ∧
      k.semaphores = (s.kernel.disownSemaphore semaphore).semaphores := by
  obtain ⟨b,k,hb⟩ : ∃ b k, s.kernel.releaseMutexBody (s.kernel.semaphores semaphore).mutex t =
      some (b,k) := ⟨_,_,hq.releaseMutexBody⟩
  have hrelease := releaseMutex_guarded hq.guarded hf (hq.pop (by decide)) hp hb
  have hsem := releaseMutex_semaphores hrelease
  obtain ⟨k',hk'⟩ : ∃ k', k.lockSlot adminMutex unlocked t = k' := ⟨_,rfl⟩
  have hquiet : k'.Quiet := by
    rw [← hk']
    exact (hq.released hp hb).lockSlot
  have hidle : unlockAllSemaphore semaphore maxBlocked (k'.disownSemaphore semaphore) =
      some (k'.disownSemaphore semaphore) := by
    apply unlockAllSemaphore_idle
    show (Function.update k'.semaphores semaphore _ semaphore).list.blockedQuantity = 0
    rw [Function.update_self,← hk']
    exact (congrArg (fun f => (f semaphore).list.blockedQuantity) hsem).trans hw
  refine ⟨k'.disownSemaphore semaphore,?_,hquiet.semaphores,?_⟩
  · unfold releaseSemaphoreBody
    rw [get_bind,if_pos hv,bind_of_ok hrelease,modify_bind]
    subst hk'
    rw [bind_of_ok (a := ()) (piece_ok.mpr ⟨_,hidle,rfl⟩)]
    rfl
  · have hsame : k'.semaphores = s.kernel.semaphores := by
      rw [← hk']
      exact hsem
    show Function.update k'.semaphores semaphore _ = Function.update s.kernel.semaphores semaphore _
    rw [hsame]

theorem releaseSemaphoreBody_ignored
    (hv : ¬ (s.kernel.isValidSemaphore semaphore ∧ (s.kernel.semaphores semaphore).creator = t)) :
    releaseSemaphoreBody semaphore t s = .ok (false,s) := by
  unfold releaseSemaphoreBody
  rw [get_bind,if_neg hv]
  rfl

theorem releaseSemaphore_quiet (hq : s.kernel.Quiet) (hl : s.semaphoreMutex = 1)
    (hf : (s.kernel.mutexes 1).value ≠ locked)
    (hb : releaseSemaphoreBody semaphore ⟨pid,thread⟩
      { s with kernel := s.kernel.lockSlot 1 locked ⟨pid,thread⟩ } = .ok (b,{ s with kernel := k }))
    (hk : k.Quiet) : ∃ k', releaseSemaphore pid semaphore thread s =
      .ok (b,{ s with kernel := k' }) ∧ k'.Quiet ∧ k'.semaphores = k.semaphores := by
  obtain ⟨k',hk',hquiet,hs⟩ := mutexUp_quiet (s := { s with kernel := k }) hk s.semaphoreMutex
    ⟨pid,thread⟩
  refine ⟨k',?_,hquiet,hs⟩
  unfold releaseSemaphore
  rw [get_bind,bind_of_ok (semaphoreMutex_down hq.guarded hl hf),bind_of_ok hb,bind_of_ok hk']
  rfl

end Registry
namespace Named
open NamedPool Registry Runs
variable {s s' : Named} {c : NamedCall}

/-- The locks of the call are free. A new name also needs both counters, or a mutex of the
same name, and a slot that has a NUL where the name ends. -/
def SemaphoreCalm (s : Named) (c : NamedCall) : Prop :=
  (s.registry.kernel.mutexes s.registry.semaphoreMutex).value ≠ locked ∧
    match c with
    | .get name _ => s.registry.kernel.findSemaphore name.1 = none →
        s.registry.usedSemaphores < maxSemaphores ∧
        (s.registry.kernel.mutexes adminMutex).value ≠ locked ∧
        (s.registry.kernel.findMutex name.1 = none → s.registry.kernel.usedMutexes < maxMutexes) ∧
        (s.registry.kernel.semaphores s.registry.firstAvailableSemaphore).name name.1.length = 0
    | .release id t => s.registry.kernel.isValidSemaphore id ∧
          (s.registry.kernel.semaphores id).creator = t →
        (s.registry.kernel.mutexes adminMutex).value ≠ locked

theorem semaphore_served {r : Option ℤ} {t : Registry}
    (h : semaphorePool.call c s.registry = .ok (r,t)) (hr : Right s.names c r)
    (hf : t.SemaphoresFiled (record s.names c r)) : Served semaphorePool s c ∧
      ∀ s', step semaphorePool s c = some s' → s'.registry.SemaphoresFiled s'.names := by
  have hlists := lists_of_files (P := semaphorePool) hf.files semaphoreBears_searches
    (fun _ _ _ => Bears.unique)
  refine ⟨⟨r,t,h,hr,hlists⟩,fun s' hs => ?_⟩
  rw [step_of_ok h] at hs
  cases hs
  exact hf

theorem semaphore_calm (h : s.registry.SemaphoresFiled s.names) (hp : 0 < c.caller.pid)
    (hc : SemaphoreCalm s c) : Served semaphorePool s c ∧
      ∀ s', step semaphorePool s c = some s' → s'.registry.SemaphoresFiled s'.names := by
  obtain ⟨hopen,hc⟩ := hc
  rw [h.lock] at hopen
  cases c with
  | get name t =>
    cases hi : s.registry.kernel.findSemaphore name.1 with
    | some i =>
      have hm := h.find.mp hi
      apply semaphore_served (s := s) (c := .get name t) (getSemaphore_hit h.guarded h.lock hopen hi)
      · exact ⟨i,rfl,fun j hj => h.files.unique i j name hm hj,fun hx => absurd hm (hx i)⟩
      · show SemaphoresFiled _ (if (i,name) ∈ s.names then _ else _)
        rw [if_pos hm]
        exact h.kernel h.toQuiet.lockSlot rfl
    | none =>
      have hn : ∀ j, (j,name) ∉ s.names := by
        intro j hj
        rw [h.find.mpr hj] at hi
        cases hi
      obtain ⟨hu,hadmin,hroom,hz⟩ := hc hi
      have hl := h.kernel (k := s.registry.kernel.lockSlot 1 locked t) h.toQuiet.lockSlot rfl
      obtain ⟨r,s₁,hcreate,hq,hsm,hnone⟩ := createSemaphore_quiet t hl.toQuiet
        (by rw [lockSlot_of_ne (by decide)]; exact hadmin) hu name.2.2.2
      cases r with
      | none =>
        obtain ⟨hx,hy⟩ := hnone.mp rfl
        rw [findMutex_lockSlot] at hx
        exact absurd (hroom hx) hy
      | some i =>
        obtain ⟨rfl,hcreated⟩ := createSemaphore_created hcreate
        have hused : t.used := by
          have hnot : notUsed = -1 := rfl
          have ht : 0 < t.pid := hp
          exact fun hx => by omega
        have hfiled := hl.created hn hused hz hcreated hq hsm
        have hfree : ∀ m, (s.registry.firstAvailableSemaphore,m) ∉ s.names := by
          intro m hm
          exact ((h.files.bears _ m).mpr hm).2.1 (h.cached hu).2
        obtain ⟨k,hcall,hquiet,hs⟩ := getSemaphore_miss h.guarded h.lock hopen hi hcreate hq
        apply semaphore_served (s := s) (c := .get name t) hcall
        · exact ⟨_,rfl,fun j hj => absurd hj (hn j),fun _ => hfree⟩
        · show SemaphoresFiled _ (if _ ∈ s.names then _ else _)
          rw [if_neg (hfree name)]
          exact hfiled.kernel hquiet hs
  | release id t =>
    have hl := h.kernel (k := s.registry.kernel.lockSlot 1 locked t) h.toQuiet.lockSlot rfl
    by_cases hv : s.registry.kernel.isValidSemaphore id ∧ (s.registry.kernel.semaphores id).creator = t
    · obtain ⟨k,hb,hk,hs⟩ := releaseSemaphoreBody_quiet hl.toQuiet
        (by rw [lockSlot_of_ne (by decide)]; exact hc hv) hp
        (h.waiters id ⟨hv.1.1,hv.1.2.1⟩) hv
      obtain ⟨k',hcall,hquiet,hs'⟩ := releaseSemaphore_quiet h.toQuiet h.lock hopen hb hk
      exact semaphore_served (call_release (P := semaphorePool) hcall) trivial
        (h.released hquiet (hs'.trans hs))
    · obtain ⟨k,hcall,hquiet,hs⟩ := releaseSemaphore_quiet h.toQuiet h.lock hopen
        (releaseSemaphoreBody_ignored hv) hl.toQuiet
      exact semaphore_served (call_release (P := semaphorePool) hcall) trivial (h.kernel hquiet hs)

theorem semaphore_not_served (h : s.registry.SemaphoresFiled s.names) (hp : 0 < c.caller.pid)
    (hc : ¬ SemaphoreCalm s c) : ¬ Served semaphorePool s c := by
  by_cases hopen : (s.registry.kernel.mutexes s.registry.semaphoreMutex).value = locked
  · cases c with
    | get name t =>
      obtain ⟨e,he⟩ := getSemaphore_waits h.guarded h.lock hopen
      exact not_served_of_error he
    | release id t =>
      obtain ⟨e,he⟩ := releaseSemaphore_waits h.guarded h.lock hopen
      exact not_served_of_error (bind_of_error he)
  · have hopen' := hopen
    rw [h.lock] at hopen'
    have hl := h.kernel (k := s.registry.kernel.lockSlot 1 locked c.caller) h.toQuiet.lockSlot rfl
    have hadmin : (s.registry.kernel.lockSlot 1 locked c.caller).mutexes adminMutex =
        s.registry.kernel.mutexes adminMutex := lockSlot_of_ne (by decide)
    cases c with
    | get name t =>
      obtain ⟨hi,hbad⟩ := Classical.not_imp.mp (fun hx => hc ⟨hopen,hx⟩)
      -- a creation that fails answers an error
      have hfails : ∀ s₁, createSemaphore t.pid name.1 t.thread { s.registry with
          kernel := s.registry.kernel.lockSlot 1 locked t } = .ok (none,s₁) → s₁.kernel.Quiet →
          ¬ Served semaphorePool s (.get name t) := by
        intro s₁ hcreate hq
        obtain ⟨k,hcall,-⟩ := getSemaphore_miss h.guarded h.lock hopen' hi hcreate hq
        rw [served_of_ok (P := semaphorePool) (s := s) (c := .get name t) hcall]
        rintro ⟨⟨id,hid,-⟩,-⟩
        cases hid
      by_cases hu : s.registry.usedSemaphores < maxSemaphores
      · by_cases ha : (s.registry.kernel.mutexes adminMutex).value = locked
        · obtain ⟨e,he⟩ := createSemaphore_waits t hl.guarded
            (by rw [hadmin]; exact ha) hu name.2.2.2
          exact not_served_of_error (getSemaphore_stops h.guarded h.lock hopen' hi he)
        · obtain ⟨r,s₁,hcreate,hq,-,hnone⟩ := createSemaphore_quiet t hl.toQuiet
            (by rw [hadmin]; exact ha) hu name.2.2.2
          cases r with
          | none => exact hfails s₁ hcreate hq
          | some i =>
            obtain ⟨rfl,-,⟨mutex,hslots⟩,-⟩ := createSemaphore_created hcreate
            have hroom : s.registry.kernel.findMutex name.1 = none →
                s.registry.kernel.usedMutexes < maxMutexes := by
              intro hx
              by_contra hy
              cases hnone.mpr ⟨findMutex_lockSlot.trans hx,hy⟩
            obtain ⟨k,hcall,-,hs⟩ := getSemaphore_miss h.guarded h.lock hopen' hi hcreate hq
            rw [served_of_ok (P := semaphorePool) (s := s) (c := .get name t) hcall]
            rintro ⟨-,hlists⟩
            refine hbad ⟨hu,ha,hroom,?_⟩
            -- the id is found under its name, so the array spells it
            have hlisted : (s.registry.firstAvailableSemaphore,name) ∈ record s.names (.get name t)
                (some s.registry.firstAvailableSemaphore) := mem_record
            have hfound := (hlists.find _ _).mpr hlisted
            have hbears := semaphoreBears_searches.found _ _ hfound
            have hspells := hbears.2.2
            rw [hs,hslots] at hspells
            simp only [Function.update_self] at hspells
            exact spells_copied.mp hspells
      · exact hfails _ (createSemaphore_none (fun hx => hu hx.1)) hl.toQuiet
    | release id t =>
      obtain ⟨hv,hbad⟩ := Classical.not_imp.mp (fun hx => hc ⟨hopen,hx⟩)
      obtain ⟨e,he⟩ := releaseSemaphoreBody_waits hl.guarded
        (by rw [hadmin]; exact not_not.mp hbad) hv
      exact not_served_of_error (bind_of_error (releaseSemaphore_stops h.guarded h.lock hopen' he))

end Named

end ComplexOS
