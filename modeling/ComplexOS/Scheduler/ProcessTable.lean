import ComplexOS.Scheduler.ProcessCalls

/-! # The processes in the ring

Lookups by pid walk the ring once, and with pids that are given out once they find the
process or tell that there is none. Every call leaves the records as they were, but for
parents and for the states of threads.
-/
namespace ComplexOS
open SlotChains

namespace ProcessRecord

structure Similar (p q : ProcessRecord) : Prop where
  pid : q.pid = p.pid
  currentThread : q.currentThread = p.currentThread
  link : q.link = p.link
  thread : ∀ t, (q.threadState t).isSome = (p.threadState t).isSome

variable {p q r : ProcessRecord} {rest : List ℤ}

theorem Similar.refl (p : ProcessRecord) : Similar p p := ⟨rfl,rfl,rfl,fun _ => rfl⟩

theorem Similar.trans (h : Similar p q) (h' : Similar q r) : Similar p r :=
  ⟨h'.pid.trans h.pid,h'.currentThread.trans h.currentThread,h'.link.trans h.link,
    fun t => (h'.thread t).trans (h.thread t)⟩

theorem similar_setThreadState {t : ℤ} {st : ProcessState} : Similar p (p.setThreadState t st) :=
  ⟨rfl,rfl,link_setThreadState,fun _ => isSome_threadState_set⟩

/-- The parent a process has once the children of `pid` have gone to `ppid`. -/
def adoptive (pid ppid : ℤ) (p : ProcessRecord) : ℤ := if p.ppid = pid then ppid else p.ppid

end ProcessRecord

namespace Scheduler
open ProcessRecord
variable {s s' s'' : Scheduler} {i j r pid thread : ℤ} {p q : ProcessRecord} {slots js : List ℤ}
  {parent parent' : ProcessRecord → ℤ} {n : ℕ} {e : ℤ}

def Has (s : Scheduler) (i : ℤ) (p : ProcessRecord) : Prop := InTable i ∧ s.process? i = some p

/-- `-1` is in front of the table. -/
theorem InTable.ne_front (h : InTable i) : i ≠ -1 := by
  rintro rfl
  exact absurd h.1 (by decide)

theorem Has.eq (h : s.Has i p) (h' : s.Has i q) : p = q := Option.some.inj (h.2.symm.trans h'.2)

theorem Queued.mem_iff (h : s.Queued slots) : i ∈ slots ↔ ∃ p, s.Has i p := by
  rw [h.live,Live,Option.isSome_iff_exists]
  constructor
  · rintro ⟨ht,p,hp⟩
    exact ⟨p,ht,hp⟩
  · rintro ⟨p,ht,hp⟩
    exact ⟨ht,p,hp⟩

theorem Queued.mem (h : s.Queued slots) (hp : s.Has i p) : i ∈ slots := h.mem_iff.mpr ⟨p,hp⟩

/-- The walk that starts at the current process meets every slot of the ring. -/
theorem Queued.path (h : s.Queued slots) : ∃ e, Path s.link s.current slots e := by
  cases slots with
  | nil => exact ⟨_,rfl⟩
  | cons c rest =>
    obtain ⟨hc,hr⟩ := h.cycle
    exact ⟨c,hc,hr.path⟩

theorem Queued.toNat (h : s.Queued slots) : s.processQuantity.toNat = slots.length := by
  rw [h.quantity,Int.toNat_natCast]

/-! ### Lookups -/

theorem findIndex_cases (pid : ℤ) (hp : Path s.link i js e) (hl : ∀ k ∈ js, s.Live k) :
    (s.findIndex pid js.length i = some none ∧ ∀ k ∈ js, ∀ p, s.process? k = some p → p.pid ≠ pid) ∨
      ∃ k p, s.findIndex pid js.length i = some (some k) ∧ k ∈ js ∧ s.process? k = some p ∧
        p.pid = pid := by
  induction js generalizing i with
  | nil => exact Or.inl ⟨rfl,fun k hk => (by cases hk)⟩
  | cons j js ih =>
    obtain ⟨rfl,hp⟩ := hp
    obtain ⟨p,hi⟩ := Option.isSome_iff_exists.mp (hl i List.mem_cons_self)
    rw [List.length_cons,findIndex,hi,Option.bind_some]
    by_cases hpid : p.pid = pid
    · rw [if_pos hpid]
      exact Or.inr ⟨i,p,rfl,List.mem_cons_self,hi,hpid⟩
    · rw [if_neg hpid]
      obtain ⟨hf,hn⟩ | ⟨k,q,hf,hk,hq⟩ := ih hp (fun k hk => hl k (List.mem_cons_of_mem _ hk))
      · refine Or.inl ⟨hf,fun k hk q hq => ?_⟩
        rcases List.mem_cons.mp hk with rfl | hk
        · obtain rfl := Option.some.inj (hi.symm.trans hq)
          exact hpid
        · exact hn k hk q hq
      · exact Or.inr ⟨k,q,hf,List.mem_cons_of_mem _ hk,hq⟩

theorem Queued.getProcessIndex (h : s.Queued slots) (pid : ℤ) :
    (s.getProcessIndex pid = some none ∧ s.Absent pid) ∨
      ∃ i p, s.getProcessIndex pid = some (some i) ∧ s.Has i p ∧ p.pid = pid := by
  obtain ⟨e,hp⟩ := h.path
  unfold Scheduler.getProcessIndex
  rw [h.toNat]
  obtain ⟨hf,hn⟩ | ⟨i,p,hf,hi,hp⟩ := findIndex_cases pid hp (fun k hk => ((h.live k).mp hk).2)
  · rw [hf]
    exact Or.inl ⟨rfl,fun i p ht hp => hn i (h.mem ⟨ht,hp⟩) p hp⟩
  · have ht : InTable i := ((h.live i).mp hi).1
    refine Or.inr ⟨i,p,?_,⟨ht,hp.1⟩,hp.2⟩
    rw [hf]
    simp [ht.ne_front]

def Distinct (s : Scheduler) : Prop := ∀ i j p q, s.Has i p → s.Has j q → p.pid = q.pid → i = j

theorem Queued.getProcessIndex_has (h : s.Queued slots) (hd : s.Distinct) (hp : s.Has i p) :
    s.getProcessIndex p.pid = some (some i) := by
  obtain ⟨-,ha⟩ | ⟨j,q,hj,hq,hpid⟩ := h.getProcessIndex p.pid
  · exact absurd rfl (ha i p hp.1 hp.2)
  · rw [hj,hd j i q p hq hp hpid]

/-! ### Writes to the records -/

structure Resembles (parent : ProcessRecord → ℤ) (s s' : Scheduler) : Prop where
  queue : SameQueue s s'
  has : ∀ i q, s'.Has i q → ∃ p, s.Has i p ∧ Similar p q ∧ q.ppid = parent p

theorem Resembles.refl (s : Scheduler) : Resembles ProcessRecord.ppid s s :=
  ⟨SameQueue.refl s,fun _ p hp => ⟨p,hp,ProcessRecord.Similar.refl p,rfl⟩⟩

theorem Resembles.trans (h : Resembles parent s s') (h' : Resembles ProcessRecord.ppid s' s'') :
    Resembles parent s s'' := by
  refine ⟨h.queue.trans h'.queue,fun i q hq => ?_⟩
  obtain ⟨x,hx,hsim,hppid⟩ := h'.has i q hq
  obtain ⟨p,hp,hsim',hppid'⟩ := h.has i x hx
  exact ⟨p,hp,hsim'.trans hsim,hppid.trans hppid'⟩

theorem Resembles.has_of (h : Resembles parent s s') (hp : s.Has i p) :
    ∃ q, s'.Has i q ∧ Similar p q ∧ q.ppid = parent p := by
  have hlive : s.Live i := live_of_process hp.2
  obtain ⟨q,hq⟩ := Option.isSome_iff_exists.mp ((h.queue.live i).mpr hlive)
  obtain ⟨p',hp',hsim⟩ := h.has i q ⟨hp.1,hq⟩
  obtain rfl : p = p' := hp.eq hp'
  exact ⟨q,⟨hp.1,hq⟩,hsim⟩

theorem Resembles.queued (h : Resembles parent s s') (hs : s.Queued slots) : s'.Queued slots := by
  refine ⟨fun i => ?_,?_,h.queue.quantity.trans hs.quantity⟩
  · rw [h.queue.live]
    exact hs.live i
  · cases slots with
    | nil => trivial
    | cons c rest =>
      refine ⟨h.queue.current.trans hs.cycle.1,?_⟩
      rw [h.queue.link]
      exact hs.cycle.2

theorem Resembles.distinct (h : Resembles parent s s') (hd : s.Distinct) : s'.Distinct := by
  intro i j p q hp hq he
  obtain ⟨p',hp',hsim,-⟩ := h.has i p hp
  obtain ⟨q',hq',hsim',-⟩ := h.has j q hq
  exact hd i j p' q' hp' hq' (hsim.pid.symm.trans (he.trans hsim'.pid))

theorem Resembles.absent (h : Resembles parent s s') : s'.Absent pid ↔ s.Absent pid := by
  constructor
  · intro ha i p ht hp
    obtain ⟨q,hq,hsim,-⟩ := h.has_of ⟨ht,hp⟩
    exact hsim.pid ▸ ha i q hq.1 hq.2
  · intro ha i q ht hq
    obtain ⟨p,hp,hsim,-⟩ := h.has i q ⟨ht,hq⟩
    exact hsim.pid ▸ ha i p hp.1 hp.2

/-- One record is replaced by a similar one. -/
theorem resembles_setProcess (hp : s.process? i = some p) (hs : Similar p q) (hq : q.ppid = p.ppid) :
    Resembles ProcessRecord.ppid s (s.setProcess i (some q)) := by
  refine ⟨SameQueue.setProcess (live_of_process hp),fun j x ⟨ht,hx⟩ => ?_⟩
  rw [process?_setProcess] at hx
  split at hx
  · rename_i hj
    obtain rfl := Option.some.inj hx
    exact ⟨p,⟨ht,hj ▸ hp⟩,hs,hq⟩
  · exact ⟨x,⟨ht,hx⟩,ProcessRecord.Similar.refl x,rfl⟩

theorem changeThreadState_resembles {st : ProcessState}
    (h : s.changeThreadState pid thread st = some s') : Resembles ProcessRecord.ppid s s' := by
  obtain ⟨index,-,h⟩ := Option.bind_eq_some_iff.mp h
  cases index with
  | none =>
    cases h
    exact Resembles.refl s
  | some i =>
    obtain ⟨p,hp,h⟩ := Option.bind_eq_some_iff.mp h
    split at h
    · obtain ⟨-,-,rfl⟩ := Option.map_eq_some_iff.mp h
      exact resembles_setProcess hp similar_setThreadState rfl
    · cases h
      exact Resembles.refl s

/-- The loop has been over all slots of `js`. -/
theorem adopt_spec (pid index : ℤ) (hp : Path s.link i js e) (hnd : js.Nodup) (hl : ∀ k ∈ js, s.Live k)
    (hq : s.process? index = some q) :
    ∃ s', adopt pid index js.length i s = some s' ∧ SameQueue s s' ∧ ∀ k, s'.process? k =
      if k ∈ js then (s.process? k).map (fun p => { p with ppid := p.adoptive pid q.ppid })
      else s.process? k := by
  induction js generalizing i s q with
  | nil => exact ⟨s,rfl,SameQueue.refl s,fun k => (if_neg List.not_mem_nil).symm⟩
  | cons j js ih =>
    obtain ⟨rfl,hp⟩ := hp
    obtain ⟨hi,hnd⟩ := List.nodup_cons.mp hnd
    obtain ⟨p,hpi⟩ := Option.isSome_iff_exists.mp (hl i List.mem_cons_self)
    have htail : ∀ k ∈ js, s.Live k := fun k hk => hl k (List.mem_cons_of_mem _ hk)
    rw [List.length_cons,adopt,hpi,Option.bind_some]
    by_cases hpid : p.ppid = pid
    · rw [if_pos hpid,hq,Option.bind_some]
      generalize hs₁ : s.setProcess i (some { p with ppid := q.ppid }) = s₁
      have hsame : SameQueue s s₁ := hs₁ ▸ SameQueue.setProcess (hl i List.mem_cons_self)
      have hproc : ∀ k, s₁.process? k = if k = i then some { p with ppid := q.ppid }
          else s.process? k := fun k => hs₁ ▸ process?_setProcess
      -- the parent of `index` is read again, and it is the same
      obtain ⟨q',hq',hppid⟩ : ∃ q', s₁.process? index = some q' ∧ q'.ppid = q.ppid := by
        rw [hproc]
        split
        · exact ⟨_,rfl,rfl⟩
        · exact ⟨q,hq,rfl⟩
      obtain ⟨s',hs',hsame',hproc'⟩ := ih (s := s₁) (by rw [hsame.link]; exact hp) hnd
        (fun k hk => (hsame.live k).mpr (htail k hk)) hq'
      refine ⟨s',hs',hsame.trans hsame',fun k => ?_⟩
      rw [hproc',hproc,hppid]
      by_cases hk : k = i
      · subst hk
        rw [if_neg hi,if_pos rfl,if_pos List.mem_cons_self,hpi]
        simp [adoptive,hpid]
      · simp [hk]
    · rw [if_neg hpid]
      obtain ⟨s',hs',hsame',hproc'⟩ := ih hp hnd htail hq
      refine ⟨s',hs',hsame',fun k => ?_⟩
      rw [hproc']
      by_cases hk : k = i
      · subst hk
        rw [if_neg hi,if_pos List.mem_cons_self,hpi]
        simp [adoptive,hpid]
      · simp [hk]

theorem Queued.changeChildrenToOrphan (h : s.Queued slots) (hd : s.Distinct) (hq : s.Has r q) :
    ∃ s', s.changeChildrenToOrphan q.pid = some s' ∧ Resembles (adoptive q.pid q.ppid) s s' := by
  obtain ⟨e,hp⟩ := h.path
  obtain ⟨s',hs',hsame,hproc⟩ := adopt_spec q.pid r hp h.nodup
    (fun k hk => ((h.live k).mp hk).2) hq.2
  refine ⟨s',?_,hsame,fun i x hx => ?_⟩
  · unfold Scheduler.changeChildrenToOrphan
    rw [h.getProcessIndex_has hd hq,Option.bind_some,h.toNat]
    exact hs'
  · have hlive := (hsame.live i).mp (live_of_process hx.2)
    have hx' := hx.2
    rw [hproc,if_pos ((h.live i).mpr ⟨hx.1,hlive⟩)] at hx'
    obtain ⟨p,hp,rfl⟩ := Option.map_eq_some_iff.mp hx'
    exact ⟨p,⟨hx.1,hp⟩,⟨rfl,rfl,rfl,fun _ => rfl⟩,rfl⟩

/-! ### Switches, removals and additions -/

/-- Who is there has been there before, with its pid and its parent. -/
def SameIds (s s' : Scheduler) : Prop := ∀ i q, s'.Has i q →
  ∃ p, s.Has i p ∧ q.pid = p.pid ∧ q.ppid = p.ppid

theorem SameIds.refl (s : Scheduler) : SameIds s s := fun _ p hp => ⟨p,hp,rfl,rfl⟩

theorem SameIds.trans (h : SameIds s s') (h' : SameIds s' s'') : SameIds s s'' := by
  intro i q hq
  obtain ⟨x,hx,hpid,hppid⟩ := h' i q hq
  obtain ⟨p,hp,hpid',hppid'⟩ := h i x hx
  exact ⟨p,hp,hpid.trans hpid',hppid.trans hppid'⟩

theorem sameIds_setProcess (hp : s.process? i = some p) (hpid : q.pid = p.pid)
    (hppid : q.ppid = p.ppid) : SameIds s (s.setProcess i (some q)) := by
  intro j x ⟨ht,hx⟩
  rw [process?_setProcess] at hx
  split at hx
  · rename_i hj
    obtain rfl := Option.some.inj hx
    exact ⟨p,⟨ht,hj ▸ hp⟩,hpid,hppid⟩
  · exact ⟨x,⟨ht,hx⟩,rfl,rfl⟩

theorem Resembles.sameIds (h : Resembles ProcessRecord.ppid s s') : SameIds s s' := by
  intro i q hq
  obtain ⟨p,hp,hsim,hppid⟩ := h.has i q hq
  exact ⟨p,hp,hsim.pid,hppid⟩

theorem demoteCurrent_ids (h : s.demoteCurrent = some s') : SameIds s s' := by
  unfold demoteCurrent at h
  split at h
  · cases h
    exact SameIds.refl s
  · rename_i p hp
    obtain ⟨st,-,h⟩ := Option.map_eq_some_iff.mp h
    split at h
    · rw [← h]
      exact sameIds_setProcess hp rfl rfl
    · rw [← h]
      exact SameIds.refl s

theorem nextThread_ids {t : ℤ} (h : p.nextThread = some (t,q)) : q.pid = p.pid ∧ q.ppid = p.ppid := by
  simp only [nextThread,Option.bind_eq_bind,Option.bind_eq_some_iff] at h
  obtain ⟨next,-,st,-,h⟩ := h
  split at h
  · cases h
    exact ⟨rfl,rfl⟩
  · cases h
    exact ⟨rfl,rfl⟩

theorem findProcess_ids {first : ℤ} (h : findProcess first n i s = some (j,s')) : SameIds s s' := by
  induction n generalizing i s with
  | zero => cases h
  | succ n ih =>
    simp only [findProcess,Option.bind_eq_bind,Option.bind_eq_some_iff] at h
    obtain ⟨p,hp,⟨found,p'⟩,hnext,h⟩ := h
    obtain ⟨hpid,hppid⟩ := nextThread_ids hnext
    have hset := sameIds_setProcess hp hpid hppid
    split at h
    · exact hset.trans (ih h)
    · obtain ⟨-,rfl⟩ := Prod.mk.inj (Option.some.inj h)
      exact hset

theorem nextProcess_ids (h : s.nextProcess = some s') : SameIds s s' := by
  unfold nextProcess at h
  split at h
  · cases h
    exact SameIds.refl s
  · simp only [Option.bind_eq_bind,Option.bind_eq_some_iff] at h
    obtain ⟨s₁,h₁,⟨next,s₂⟩,h₂,p,hp,h⟩ := h
    cases h
    exact ((demoteCurrent_ids h₁).trans (findProcess_ids h₂)).trans (sameIds_setProcess hp rfl rfl)

theorem demoteCurrent_some (hp : s.process? s.current = some p)
    (ht : (p.threadState p.currentThread).isSome) : ∃ d, s.demoteCurrent = some d := by
  obtain ⟨st,hst⟩ := Option.isSome_iff_exists.mp ht
  unfold demoteCurrent
  rw [hp]
  simp [hst]

theorem demoteCurrent_process (h : s.demoteCurrent = some d) (hi : i ≠ s.current) :
    d.process? i = s.process? i := by
  unfold demoteCurrent at h
  split at h
  · cases h
    rfl
  · obtain ⟨st,-,h⟩ := Option.map_eq_some_iff.mp h
    split at h
    · rw [← h,process?_setProcess,if_neg hi]
    · rw [← h]

/-- The switch goes to the next process if that has a READY thread. -/
theorem nextProcess_next (hl : s.changeLock ≠ 1) (hd : s.demoteCurrent = some d)
    (hp : d.process? (d.link d.current) = some p) (hn : p.nextThread = some (t,p')) (ht : t ≠ -1) :
    s.nextProcess = some { d.setProcess (d.link d.current)
        (some (p'.setThreadState p'.currentThread .running)) with
      current := d.link d.current
      quantum := fullQuantum } := by
  have hfind : findProcess d.current maxProcesses d.current d =
      some (d.link d.current,d.setProcess (d.link d.current) (some p')) := by
    rw [maxProcesses,findProcess]
    simp [hp,hn,ht]
  rw [nextProcess,if_neg hl,hd]
  simp [hfind,process?_setProcess,setProcess_setProcess]

theorem Detached.has {b : Bool} (h : Detached s r b s') : s'.Has i p ↔ s.Has i p ∧ i ≠ r := by
  unfold Has
  rw [h.process]
  split
  · rename_i hi
    simp [hi]
  · rename_i hi
    exact ⟨fun hp => ⟨hp,hi⟩,And.left⟩

structure Added (s : Scheduler) (p : ProcessRecord) (j : ℤ) (s' : Scheduler) : Prop where
  table : InTable j
  free : ¬ s.Live j
  process : ∀ i, s'.process? i = if i = j then some p else s.process? i
  queued : ∃ slots, s'.Queued slots
  current : s.processQuantity ≠ 0 → s'.current = s.current
  space : s'.firstAvailableSpace = s'.findFirstAvailableSpace
  quantity : s'.processQuantity = s.processQuantity+1
  changeLock : s'.changeLock = 0

theorem Queued.added (h : s.Queued slots) (hq : s.processQuantity ≠ maxProcesses)
    (ht : s.processQuantity ≠ 0 → InTable s.firstAvailableSpace ∧ ¬ s.Live s.firstAvailableSpace)
    (hl : s.changeLock = 0) : ∃ j, Added s p j (s.addProcess p).1 := by
  have hlt : s.processQuantity < maxProcesses := by
    refine lt_of_le_of_ne ?_ hq
    rw [h.quantity]
    exact Int.ofNat_le.mpr h.length_le
  obtain ⟨slots',hqueued,hspace,hlock⟩ := addProcess_ok (p := p) h hlt ht hl
  have hprocess : ∀ i, (s.addProcess p).1.process? i = (s.place p).process? i := by
    intro i
    rw [Scheduler.addProcess,if_pos hq]
    rfl
  have hcurrent : (s.addProcess p).1.current = (s.place p).current := by
    rw [Scheduler.addProcess,if_pos hq]
  by_cases h0 : s.processQuantity = 0
  · have hplace : s.place p = ({ s with current := 0 }.setNext 0 0).setProcess 0 (some p) := if_pos h0
    have hfree : ¬ s.Live 0 := by
      intro hlive
      have hmem := (h.live 0).mpr ⟨by decide,hlive⟩
      rw [h.empty h0] at hmem
      cases hmem
    refine ⟨0,⟨by decide,hfree,fun i => ?_,⟨slots',hqueued⟩,fun hne => absurd h0 hne,hspace,
      processQuantity_addProcess hq,hlock⟩⟩
    rw [hprocess,hplace,process?_setProcess,process?_setNext]
    rfl
  · have hplace : s.place p = ((s.setNext s.current s.firstAvailableSpace).setProcess
      s.firstAvailableSpace (some p)).setNext s.firstAvailableSpace (s.link s.current) := if_neg h0
    obtain ⟨ht,hf⟩ := ht h0
    refine ⟨s.firstAvailableSpace,⟨ht,hf,fun i => ?_,⟨slots',hqueued⟩,fun _ => ?_,hspace,
      processQuantity_addProcess hq,hlock⟩⟩
    · rw [hprocess,hplace,process?_setNext,process?_setProcess,process?_setNext]
    · rw [hcurrent,hplace]
      rfl

theorem Added.live_of_ne {d : Scheduler} (h : Added s p j d) (hi : i ≠ j) :
    d.Live i ↔ s.Live i := by
  rw [Live,h.process,if_neg hi]
  rfl

/-- The cached slot has been looked up again. -/
theorem Added.slot {d : Scheduler} (h : Added s p j d) (hq : d.processQuantity ≠ maxProcesses) :
    InTable d.firstAvailableSpace := by
  obtain ⟨slots,hs⟩ := h.queued
  rw [h.space]
  refine (hs.findFirst.resolve_left (fun hfull => hq ?_)).2.1
  rw [hs.quantity,hfull.1]

theorem Added.has {d : Scheduler} (h : Added s p j d) : d.Has i q ↔ s.Has i q ∨ i = j ∧ q = p := by
  unfold Has
  rw [h.process]
  by_cases hi : i = j
  · subst hi
    rw [if_pos rfl]
    constructor
    · exact fun hx => Or.inr ⟨rfl,(Option.some.inj hx.2).symm⟩
    · rintro (hx | ⟨-,rfl⟩)
      · exact absurd (live_of_process hx.2) h.free
      · exact ⟨h.table,rfl⟩
  · rw [if_neg hi]
    simp [hi]

theorem Detached.sameIds {b : Bool} (h : Detached s r b s') : SameIds s s' :=
  fun _ p hp => ⟨p,(h.has.mp hp).1,rfl,rfl⟩

end Scheduler
end ComplexOS
