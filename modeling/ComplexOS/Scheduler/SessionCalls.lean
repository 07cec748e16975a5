import ComplexOS.Scheduler.ProcessTable

/-! # Sessions that are in order

The ring is linked, its cached slot is free, and pids are given out once. What a creation
and a kill do to such a session.
-/
namespace ComplexOS

namespace Session
open Scheduler ProcessRecord

structure Ok (s : Session) : Prop where
  queued : ∃ slots, s.scheduler.Queued slots
  front : ¬ s.scheduler.Live (-1)
  space : s.scheduler.processQuantity ≠ maxProcesses → s.scheduler.firstAvailableSpace = -1 ∨
    InTable s.scheduler.firstAvailableSpace ∧ ¬ s.scheduler.Live s.scheduler.firstAvailableSpace
  full : s.scheduler.processQuantity = maxProcesses → s.scheduler.firstAvailableSpace = -1
  unlocked : s.scheduler.changeLock = 0
  nextPid : 0 < s.nextPid
  pids : ∀ i p, s.scheduler.Has i p → 0 < p.pid ∧ p.pid < s.nextPid
  distinct : s.scheduler.Distinct

variable {s s' : Session} {d : Scheduler} {p q memory : ProcessRecord} {i j r pid : ℤ} {a : ℕ}
  {e : Ending} {background : Bool} {st : ProcessState} {parent : ProcessRecord → ℤ} {b : Bool}

/-- The queue is the same but for the process that runs. -/
theorem Ok.same (h : s.Ok) (hq : ∃ slots, d.Queued slots) {c : ℤ}
    (hs : SameQueue { s.scheduler with current := c } d) (hi : SameIds s.scheduler d) :
    Ok { s with scheduler := d } := by
  have hspace : d.firstAvailableSpace = s.scheduler.firstAvailableSpace := hs.space
  have hquantity : d.processQuantity = s.scheduler.processQuantity := hs.quantity
  refine ⟨hq,fun hl => h.front ((hs.live _).mp hl),fun hne => ?_,fun hf => ?_,
    hs.changeLock.trans h.unlocked,h.nextPid,fun i q hq => ?_,fun i j p q hp hq he => ?_⟩
  · rw [hquantity] at hne
    rw [hspace]
    exact (h.space hne).imp_right (And.imp_right (fun hf hl => hf ((hs.live _).mp hl)))
  · rw [hspace]
    exact h.full (hquantity.symm.trans hf)
  · obtain ⟨p,hp,hpid,-⟩ := hi i q hq
    rw [hpid]
    exact h.pids i p hp
  · obtain ⟨p',hp',hpid,-⟩ := hi i p hp
    obtain ⟨q',hq',hpid',-⟩ := hi j q hq
    exact h.distinct i j p' q' hp' hq' (hpid.symm.trans (he.trans hpid'))

theorem Ok.resembles (h : s.Ok) (hr : Resembles parent s.scheduler d) :
    Ok { s with scheduler := d } := by
  obtain ⟨slots,hs⟩ := h.queued
  have hspace := hr.queue.space
  have hquantity := hr.queue.quantity
  refine ⟨⟨slots,hr.queued hs⟩,fun hl => h.front ((hr.queue.live _).mp hl),fun hne => ?_,
    fun hf => ?_,hr.queue.changeLock.trans h.unlocked,h.nextPid,fun i q hq => ?_,
    hr.distinct h.distinct⟩
  · rw [hquantity] at hne
    rw [hspace]
    exact (h.space hne).imp_right (And.imp_right (fun hf hl => hf ((hr.queue.live _).mp hl)))
  · rw [hspace]
    exact h.full (hquantity.symm.trans hf)
  · obtain ⟨p,hp,hsim,-⟩ := hr.has i q hq
    rw [hsim.pid]
    exact h.pids i p hp

theorem Ok.foreground {fg : Option ℤ} (h : s.Ok) : Ok { s with foreground := fg } :=
  ⟨h.queued,h.front,h.space,h.full,h.unlocked,h.nextPid,h.pids,h.distinct⟩

theorem Ok.removed (h : s.Ok) (hr : Removed s.scheduler pid d r) (hi : SameIds s.scheduler d) :
    Ok { s with scheduler := d } := by
  obtain ⟨slots,hs⟩ := h.queued
  have hle := hs.quantity_le
  have hquantity := hr.quantity
  refine ⟨hr.queued,fun hl => h.front ((hr.live _).mp hl).1,fun _ => ?_,fun hf => ?_,
    hr.changeLock.trans h.unlocked,h.nextPid,fun i q hq => ?_,fun i j p q hp hq he => ?_⟩
  · rcases hr.space with hx | ⟨-,hx⟩
    · rw [hx]
      by_cases hf : s.scheduler.processQuantity = maxProcesses
      · exact Or.inl (h.full hf)
      · exact (h.space hf).imp_right (And.imp_right (fun hfree hl => hfree ((hr.live _).mp hl).1))
    · rw [hx]
      exact Or.inr ⟨hr.table,fun hl => ((hr.live _).mp hl).2 rfl⟩
  · have hf' : d.processQuantity = maxProcesses := hf
    omega
  · obtain ⟨p,hp,hpid,-⟩ := hi i q hq
    rw [hpid]
    exact h.pids i p hp
  · obtain ⟨p',hp',hpid,-⟩ := hi i p hp
    obtain ⟨q',hq',hpid',-⟩ := hi j q hq
    exact h.distinct i j p' q' hp' hq' (hpid.symm.trans (he.trans hpid'))

theorem Ok.nextProcess (h : s.Ok) (h0 : s.scheduler.processQuantity ≠ 0)
    (hn : s.scheduler.nextProcess = some d) :
    Ok { s with scheduler := d } ∧ ∀ i, d.Live i ↔ s.scheduler.Live i := by
  obtain ⟨slots,hs⟩ := h.queued
  have hmem := hs.current_mem h0
  cases slots with
  | nil => cases hmem
  | cons c rest =>
    obtain ⟨hq,hsame⟩ := hs.linked.nextProcess h.unlocked (hs.linked.next_mem hmem) hn
    exact ⟨h.same hq hsame (nextProcess_ids hn),hsame.live⟩

theorem Ok.update (h : s.Ok) (hq : s.scheduler.process? i = some q) (hpid : p.pid = q.pid)
    (hppid : p.ppid = q.ppid) : Ok { s with scheduler := s.scheduler.setProcess i (some p) } ∧
      ∀ k, (s.scheduler.setProcess i (some p)).Live k ↔ s.scheduler.Live k := by
  obtain ⟨slots,hs⟩ := h.queued
  have hsame : SameQueue s.scheduler (s.scheduler.setProcess i (some p)) :=
    SameQueue.setProcess (live_of_process hq)
  have hqueued : (s.scheduler.setProcess i (some p)).Queued slots := by
    refine ⟨fun k => ?_,?_,hs.quantity⟩
    · rw [hsame.live]
      exact hs.live k
    · cases slots with
      | nil => trivial
      | cons c rest => exact ⟨hs.cycle.1,hsame.link ▸ hs.cycle.2⟩
  exact ⟨h.same ⟨slots,hqueued⟩ hsame (sameIds_setProcess hq hpid hppid),hsame.live⟩

theorem Ok.process?_front (h : s.Ok) : s.scheduler.process? (-1) = none :=
  Option.not_isSome_iff_eq_none.mp h.front

/-- There is a caller, unless there is no process at all. -/
theorem Ok.getpid (h : s.Ok) : ∃ pid, s.scheduler.getpid = some pid := by
  obtain ⟨slots,hs⟩ := h.queued
  unfold Scheduler.getpid
  split
  · exact ⟨_,rfl⟩
  · rename_i h0
    obtain ⟨p,hp⟩ := hs.mem_iff.mp (hs.current_mem h0)
    rw [hp.2]
    exact ⟨p.pid,rfl⟩

/-! ### Creations -/

/-- A process as `createProcess` makes it, with a pid that nobody has had. -/
structure Created (s : Session) (p : ProcessRecord) : Prop where
  pid : p.pid = s.nextPid
  ppid : s.scheduler.getpid = some p.ppid
  currentThread : p.currentThread = 0
  link : p.link 0 = 0
  thread : ∀ t, InThreads t → ((p.threadState t).isSome ↔ t = 0)

theorem createProcess_cases (h : s.createProcess memory a = some (p,s')) :
    Created s p ∧ s' = { s with nextPid := s.nextPid+1 } := by
  obtain ⟨ppid,hppid,h⟩ := Option.bind_eq_some_iff.mp h
  obtain ⟨next,hnext,h⟩ := Option.map_eq_some_iff.mp h
  obtain ⟨rfl,rfl⟩ := Prod.mk.inj h
  obtain ⟨-,hnext⟩ := Option.ite_none_right_eq_some.mp hnext
  cases hnext
  refine ⟨⟨rfl,hppid,rfl,rfl,fun t ht => ?_⟩,rfl⟩
  unfold ProcessRecord.threadState
  by_cases h0 : t = 0
  · simp [h0]
  · have hin : 0 ≤ t ∧ t < maxThreads := ht
    simp [h0,hin]

theorem Ok.created (h : s.Ok) : Ok { s with nextPid := s.nextPid+1 } :=
  ⟨h.queued,h.front,h.space,h.full,h.unlocked,h.nextPid.trans (Int.lt_succ _),
    fun i p hp => ⟨(h.pids i p hp).1,(h.pids i p hp).2.trans (Int.lt_succ _)⟩,h.distinct⟩

theorem Ok.absent (h : s.Ok) (hp : s.nextPid ≤ pid) : s.scheduler.Absent pid :=
  fun i p ht hx he => absurd (h.pids i p ⟨ht,hx⟩).2 (not_lt.mpr (he ▸ hp))

theorem Ok.added (h : s.Ok) (ha : Added s.scheduler p j d) (h0 : 0 < p.pid) (hp : p.pid < s.nextPid)
    (hn : s.scheduler.Absent p.pid) : Ok { s with scheduler := d } := by
  obtain ⟨slots,hs⟩ := ha.queued
  refine ⟨ha.queued,fun hl => h.front ((ha.live_of_ne ha.table.ne_front.symm).mp hl),
    fun _ => ?_,fun hf => ?_,ha.changeLock,h.nextPid,fun i q hq => ?_,
    fun i i' q q' hq hq' he => ?_⟩
  · rw [ha.space]
    exact hs.findFirst.imp And.right And.right
  · rcases hs.findFirst with ⟨-,hm⟩ | ⟨hlt,-⟩
    · exact ha.space.trans hm
    · have hf' : d.processQuantity = maxProcesses := hf
      rw [hs.quantity] at hf'
      exact absurd (Int.ofNat.inj hf') hlt.ne
  · rcases ha.has.mp hq with hq | ⟨-,rfl⟩
    · exact h.pids i q hq
    · exact ⟨h0,hp⟩
  · rcases ha.has.mp hq with hq | ⟨rfl,rfl⟩
    · rcases ha.has.mp hq' with hq' | ⟨-,rfl⟩
      · exact h.distinct i i' q q' hq hq' he
      · exact absurd he (hn i q hq.1 hq.2)
    · rcases ha.has.mp hq' with hq' | ⟨rfl,-⟩
      · exact absurd he.symm (hn i' q' hq'.1 hq'.2)
      · rfl

theorem Ok.slot (h : s.Ok) (hq : s.scheduler.processQuantity ≠ maxProcesses)
    (ht : InTable s.scheduler.firstAvailableSpace) :
    InTable s.scheduler.firstAvailableSpace ∧
      ¬ s.scheduler.Live s.scheduler.firstAvailableSpace :=
  (h.space hq).resolve_left ht.ne_front

/-- What `addProcess` makes of a session: nothing where the table is full. -/
theorem addProcess_cases (p : ProcessRecord) (h : s.Ok) (hv : s.HasSlot) :
    (s.scheduler.processQuantity = maxProcesses ∧ s.addProcess p = s) ∨
      (s.scheduler.processQuantity ≠ maxProcesses ∧
        ∃ j d, Added s.scheduler p j d ∧ s.addProcess p = { s with scheduler := d }) := by
  by_cases hq : s.scheduler.processQuantity = maxProcesses
  · refine Or.inl ⟨hq,?_⟩
    rw [Session.addProcess,addProcess_full hq]
  · obtain ⟨slots,hs⟩ := h.queued
    obtain ⟨j,hj⟩ := hs.added (p := p) hq (fun h0 => h.slot hq (hv h0 hq)) h.unlocked
    exact Or.inr ⟨hq,j,_,hj,rfl⟩

/-- Where there is room but no slot, the cached slot is the sentinel. -/
theorem Ok.sentinel (h : s.Ok) (hv : ¬ s.HasSlot) : s.scheduler.processQuantity ≠ 0 ∧
    s.scheduler.processQuantity ≠ maxProcesses ∧ s.scheduler.firstAvailableSpace = -1 := by
  obtain ⟨h0,hq,ht⟩ : s.scheduler.processQuantity ≠ 0 ∧ s.scheduler.processQuantity ≠ maxProcesses ∧
      ¬ InTable s.scheduler.firstAvailableSpace := by
    simpa [HasSlot] using hv
  exact ⟨h0,hq,(h.space hq).resolve_right (fun hx => ht hx.1)⟩

/-- The ring is not one of slots of the table. -/
theorem not_queued_of_front (h0 : d.processQuantity ≠ 0) (hn : d.link d.current = -1) :
    ¬ ∃ slots, d.Queued slots := by
  rintro ⟨slots,hs⟩
  have hmem := hs.current_mem h0
  cases slots with
  | nil => cases hmem
  | cons c rest => exact ((hs.live _).mp (hs.linked.next_mem hmem)).1.ne_front hn

theorem setForeground_cases (h : s.Ok) (hx : s.setForeground pid = some s') :
    (s.scheduler.Absent pid ∧ s' = { s with foreground := none }) ∨
      ∃ i p, s.scheduler.Has i p ∧ p.pid = pid ∧ s' = { s with foreground := some pid } := by
  obtain ⟨slots,hs⟩ := h.queued
  obtain ⟨index,hindex,rfl⟩ := Option.map_eq_some_iff.mp hx
  obtain ⟨hn,ha⟩ | ⟨i,p,hi,hp,hpid⟩ := hs.getProcessIndex pid
  · cases hindex.symm.trans hn
    refine Or.inl ⟨ha,?_⟩
    rw [Option.getD_none,h.process?_front,Option.map_none]
  · cases hindex.symm.trans hi
    refine Or.inr ⟨i,p,hp,hpid,?_⟩
    rw [Option.getD_some,hp.2,Option.map_some,hpid]

theorem changeForegroundState_cases (hx : s.changeForegroundState st = some s') :
    ∃ d, Resembles ProcessRecord.ppid s.scheduler d ∧ s' = { s with scheduler := d } := by
  obtain ⟨p,-,hx⟩ := Option.bind_eq_some_iff.mp hx
  obtain ⟨d,hd,rfl⟩ := Option.map_eq_some_iff.mp hx
  exact ⟨d,changeThreadState_resembles hd,rfl⟩

/-- What `sysRunProcess` makes of a session. Where there is room it adds a new process, and
only a process that has been added can be found. -/
theorem sysRunProcess_cases (h : s.Ok) (hv : s.HasSlot)
    (hx : s.sysRunProcess memory a background = some s') : ∃ p, Created s p ∧
      ∃ d, (s.scheduler.processQuantity = maxProcesses ∧ d = s.scheduler ∨
          s.scheduler.processQuantity ≠ maxProcesses ∧ ∃ j, Added s.scheduler p j d) ∧
        (background = true ∧ s' = ⟨d,s.foreground,s.nextPid+1⟩ ∨
          background = false ∧ ∃ d', Resembles ProcessRecord.ppid d d' ∧ s' = ⟨d',
            if s.scheduler.processQuantity = maxProcesses then none else some p.pid,s.nextPid+1⟩) := by
  simp only [sysRunProcess,Option.bind_eq_bind,Option.bind_eq_some_iff] at hx
  obtain ⟨⟨p,s₁⟩,hc,hx⟩ := hx
  obtain ⟨hp,rfl⟩ := createProcess_cases hc
  generalize hs₂ : Session.addProcess { s with nextPid := s.nextPid+1 } p = s₂ at hx
  refine ⟨p,hp,s₂.scheduler,?_⟩
  have hok := h.created
  have hadd := hs₂ ▸ addProcess_cases p hok hv
  have hnext : p.pid < s.nextPid+1 := hp.pid ▸ Int.lt_succ _
  have hok₂ : s₂.Ok := by
    rcases hadd with ⟨-,rfl⟩ | ⟨-,j,d,hj,rfl⟩
    · exact hok
    · exact hok.added hj (hp.pid ▸ h.nextPid) hnext (h.absent hp.pid.ge)
  have hrest : s₂.foreground = s.foreground ∧ s₂.nextPid = s.nextPid+1 := by
    rcases hadd with ⟨-,rfl⟩ | ⟨-,j,d,-,rfl⟩
    · exact ⟨rfl,rfl⟩
    · exact ⟨rfl,rfl⟩
  refine ⟨?_,?_⟩
  · rcases hadd with ⟨hq,rfl⟩ | ⟨hq,j,d,hj,rfl⟩
    · exact Or.inl ⟨hq,rfl⟩
    · exact Or.inr ⟨hq,j,hj⟩
  cases background with
  | true =>
    obtain rfl := Option.some.inj hx
    refine Or.inl ⟨rfl,?_⟩
    rw [← hrest.1,← hrest.2]
  | false =>
    obtain ⟨s₃,hs,hx⟩ := Option.bind_eq_some_iff.mp hx
    obtain ⟨d',hd',rfl⟩ := changeForegroundState_cases hs
    refine Or.inr ⟨rfl,d',hd',?_⟩
    have hok₃ := hok₂.resembles hd'
    rcases hadd with ⟨hq,rfl⟩ | ⟨hq,j,d,hj,rfl⟩
    · have habsent : d'.Absent p.pid := hd'.absent.mpr (h.absent hp.pid.ge)
      rw [if_pos hq]
      obtain ⟨-,rfl⟩ | ⟨i,q,hq,hpid,-⟩ := setForeground_cases hok₃ hx
      · rfl
      · exact absurd hpid (habsent i q hq.1 hq.2)
    · obtain ⟨q,hq',hsim,-⟩ := hd'.has_of (hj.has.mpr (Or.inr ⟨rfl,rfl⟩))
      rw [if_neg hq]
      obtain ⟨ha,-⟩ | ⟨i,q,-,-,rfl⟩ := setForeground_cases hok₃ hx
      · exact absurd hsim.pid (ha j q hq'.1 hq'.2)
      · rfl

theorem Ok.sysRunProcess (h : s.Ok) (hv : s.HasSlot)
    (hx : s.sysRunProcess memory a background = some s') : s'.Ok := by
  obtain ⟨p,hp,d,hd,hx⟩ := sysRunProcess_cases h hv hx
  have hok : Ok ⟨d,s.foreground,s.nextPid+1⟩ := by
    rcases hd with ⟨-,rfl⟩ | ⟨-,j,hj⟩
    · exact h.created
    · exact h.created.added hj (hp.pid ▸ h.nextPid) (hp.pid ▸ Int.lt_succ _) (h.absent hp.pid.ge)
  rcases hx with ⟨-,rfl⟩ | ⟨-,d',hd',rfl⟩
  · exact hok
  · exact (hok.resembles hd').foreground

/-! ### The process in the foreground -/

def ForegroundThere (s : Session) : Prop := ∃ i p, s.scheduler.Has i p ∧ s.foreground = some p.pid ∧
  (InThreads p.currentThread → (p.threadState p.currentThread).isSome)

theorem Ok.foregroundProcess (h : s.Ok) :
    s.foregroundProcess = some p ↔ ∃ i, s.scheduler.Has i p ∧ s.foreground = some p.pid := by
  obtain ⟨slots,hs⟩ := h.queued
  constructor
  · intro hx
    obtain ⟨pid,hf,hx⟩ := Option.bind_eq_some_iff.mp hx
    obtain ⟨index,hindex,hx⟩ := Option.bind_eq_some_iff.mp hx
    obtain ⟨hi,-⟩ := Option.filter_eq_some_iff.mp hx
    obtain ⟨hn,-⟩ | ⟨k,q,hk,hq,hpid⟩ := hs.getProcessIndex pid
    · cases hindex.symm.trans hn
      rw [Option.getD_none,h.process?_front] at hi
      cases hi
    · cases hindex.symm.trans hk
      obtain rfl : q = p := hq.eq ⟨hq.1,hi⟩
      exact ⟨_,hq,hpid ▸ hf⟩
  · rintro ⟨i,hp,hf⟩
    unfold Session.foregroundProcess
    rw [hf,Option.bind_some,hs.getProcessIndex_has h.distinct hp,Option.bind_some,Option.getD_some,
      hp.2]
    exact Option.filter_some_pos (decide_eq_true rfl)

theorem Ok.changeThreadState {t : ℤ} (h : s.Ok) (hp : s.scheduler.Has i p) :
    s.scheduler.changeThreadState p.pid t st = if 0 ≤ t ∧ t < maxThreads then
      (p.threads t).thread.map (fun _ => s.scheduler.setProcess i (some (p.setThreadState t st)))
    else some s.scheduler := by
  obtain ⟨slots,hs⟩ := h.queued
  unfold Scheduler.changeThreadState
  rw [hs.getProcessIndex_has h.distinct hp,Option.bind_some]
  simp only [hp.2,Option.bind_some]

theorem Ok.changeForegroundState (h : s.Ok) :
    (∃ s', s.changeForegroundState st = some s') ↔ s.ForegroundThere := by
  constructor
  · rintro ⟨s',hx⟩
    obtain ⟨p,hp,hx⟩ := Option.bind_eq_some_iff.mp hx
    obtain ⟨d,hd,-⟩ := Option.map_eq_some_iff.mp hx
    obtain ⟨i,hi,hf⟩ := h.foregroundProcess.mp hp
    refine ⟨i,p,hi,hf,fun ht => ?_⟩
    unfold InThreads at ht
    rw [h.changeThreadState hi,if_pos ht] at hd
    obtain ⟨th,hth,-⟩ := Option.map_eq_some_iff.mp hd
    rw [ProcessRecord.threadState,hth]
    rfl
  · rintro ⟨i,p,hi,hf,hthread⟩
    unfold Session.changeForegroundState
    rw [h.foregroundProcess.mpr ⟨i,hi,hf⟩,Option.bind_some,h.changeThreadState hi]
    split
    · rename_i ht
      have hsome := hthread ht
      rw [ProcessRecord.threadState,Option.isSome_map] at hsome
      obtain ⟨th,hth⟩ := Option.isSome_iff_exists.mp hsome
      rw [hth]
      exact ⟨_,rfl⟩
    · exact ⟨_,rfl⟩

/-- Everybody else's record stays the very same. -/
theorem Ok.changeForegroundState_has (h : s.Ok) (hx : s.changeForegroundState st = some s')
    (hq : s.scheduler.Has j q) (hne : s.foreground ≠ some q.pid) : s'.scheduler.Has j q := by
  obtain ⟨p,hp,hx⟩ := Option.bind_eq_some_iff.mp hx
  obtain ⟨d,hd,rfl⟩ := Option.map_eq_some_iff.mp hx
  obtain ⟨i,hi,hf⟩ := h.foregroundProcess.mp hp
  rw [h.changeThreadState hi] at hd
  split at hd
  · obtain ⟨-,-,rfl⟩ := Option.map_eq_some_iff.mp hd
    have hji : j ≠ i := by
      rintro rfl
      exact hne (hq.eq hi ▸ hf)
    refine ⟨hq.1,?_⟩
    rw [process?_setProcess,if_neg hji]
    exact hq.2
  · cases hd
    exact hq

theorem setForeground_has (h : s.Ok) (hp : s.scheduler.Has i p) :
    s.setForeground p.pid = some { s with foreground := some p.pid } := by
  obtain ⟨slots,hs⟩ := h.queued
  unfold setForeground
  rw [hs.getProcessIndex_has h.distinct hp,Option.map_some,Option.getD_some,hp.2,Option.map_some]

/-! ### Kills -/

def ending (b : Bool) : Ending := if b then .yields else .returned

theorem removeProcess_cases (h : s.Ok) (hp : s.scheduler.Has r p)
    (hx : s.removeProcess r = some (e,s')) : ∃ b d, Detached s.scheduler r b d ∧ e = ending b ∧
      s' = { s with scheduler := d } := by
  obtain ⟨slots,hs⟩ := h.queued
  obtain ⟨q,hq,hx⟩ := Option.bind_eq_some_iff.mp hx
  obtain ⟨⟨b,d⟩,hd,hx⟩ := Option.map_eq_some_iff.mp hx
  obtain ⟨rfl,rfl⟩ := Prod.mk.inj hx
  obtain rfl : p = q := hp.eq ⟨hp.1,hq⟩
  obtain ⟨-,-,ha⟩ | ⟨r',p',hp',hpid,hdet⟩ := detach_cases hs hd
  · exact absurd rfl (ha r p hp.1 hp.2)
  · obtain rfl : r' = r := h.distinct r' r p' p ⟨hdet.table,hp'⟩ hp hpid
    exact ⟨b,d,hdet,rfl,rfl⟩

/-- What `killProcess` makes of a session. The children of a process that is there go to its
parent, the foreground goes there, too, and the slot is emptied. -/
inductive Killed (s : Session) (pid : ℤ) : Ending → Session → Prop
  | absent (h : s.scheduler.Absent pid) : Killed s pid .returned s
  | lost {r : ℤ} {p : ProcessRecord} {d : Scheduler} (hp : s.scheduler.Has r p) (hpid : p.pid = pid)
    (hf : s.foreground = some pid) (ha : s.scheduler.Absent p.ppid) :
    Killed s pid .lost ⟨d,none,s.nextPid⟩
  | removed {r : ℤ} {p : ProcessRecord} {d d' : Scheduler} {b : Bool} {fg : ℤ}
    (hp : s.scheduler.Has r p) (hpid : p.pid = pid)
    (hd : Resembles (adoptive pid p.ppid) s.scheduler d) (hd' : Detached d r b d')
    (hf : s.foreground = some fg ∧ fg ≠ pid ∨
      s.foreground = some pid ∧ fg = p.ppid ∧ ∃ i q, s.scheduler.Has i q ∧ q.pid = fg) :
    Killed s pid (ending b) ⟨d',some fg,s.nextPid⟩

theorem leaveForeground_cases {fg : Option ℤ} (h : s.Ok) (hp : s.scheduler.Has r p)
    (hd : Resembles parent s.scheduler d) (hparent : parent p = p.ppid)
    (hx : leaveForeground ⟨d,fg,s.nextPid⟩ r = some (e,s')) :
    (s.scheduler.Absent p.ppid ∧ e = .lost ∧ s' = ⟨d,none,s.nextPid⟩) ∨
      ∃ b d' d'', (∃ i q, s.scheduler.Has i q ∧ q.pid = p.ppid) ∧
        Resembles parent s.scheduler d' ∧ Detached d' r b d'' ∧ e = ending b ∧
          s' = ⟨d'',some p.ppid,s.nextPid⟩ := by
  have hok : Ok ⟨d,fg,s.nextPid⟩ := (h.resembles hd).foreground
  obtain ⟨q,hq,hsim,hppid⟩ := hd.has_of hp
  simp only [leaveForeground,Option.bind_eq_bind,Option.bind_eq_some_iff] at hx
  obtain ⟨q',hq',s₁,hs₁,hx⟩ := hx
  obtain rfl : q = q' := hq.eq ⟨hq.1,hq'⟩
  rw [hppid,hparent] at hs₁
  obtain ⟨ha,rfl⟩ | ⟨i,x,hi,hpid,rfl⟩ := setForeground_cases hok hs₁
  · rw [if_pos rfl] at hx
    obtain ⟨rfl,rfl⟩ := Prod.mk.inj (Option.some.inj hx)
    exact Or.inl ⟨hd.absent.mp ha,rfl,rfl⟩
  · rw [if_neg (by simp)] at hx
    obtain ⟨s₂,hs₂,hx⟩ := Option.bind_eq_some_iff.mp hx
    obtain ⟨d',hd',rfl⟩ := changeForegroundState_cases hs₂
    have hall := hd.trans hd'
    obtain ⟨y,hy,-,-⟩ := hall.has_of hp
    have hok' : Ok ⟨d',some p.ppid,s.nextPid⟩ := (h.resembles hall).foreground
    obtain ⟨b,d'',hdet,rfl,rfl⟩ := removeProcess_cases hok' hy hx
    obtain ⟨x',hx',hsim',-⟩ := hd.has i x hi
    exact Or.inr ⟨b,d',d'',⟨i,x',hx',hsim'.pid.symm.trans hpid⟩,hall,hdet,rfl,rfl⟩

theorem killProcess_cases (h : s.Ok) (hx : s.killProcess pid = some (e,s')) : Killed s pid e s' := by
  obtain ⟨slots,hs⟩ := h.queued
  obtain ⟨index,hindex,hx⟩ := Option.bind_eq_some_iff.mp hx
  obtain ⟨hn,ha⟩ | ⟨r,p,hi,hp,hpid⟩ := hs.getProcessIndex pid
  · cases hindex.symm.trans hn
    obtain ⟨rfl,rfl⟩ := Prod.mk.inj (Option.some.inj hx)
    exact .absent ha
  cases hindex.symm.trans hi
  obtain ⟨d,hd,hx⟩ := Option.bind_eq_some_iff.mp hx
  obtain ⟨fg,hfg,hx⟩ := Option.bind_eq_some_iff.mp hx
  obtain ⟨d₁,hd₁,hres⟩ := hs.changeChildrenToOrphan h.distinct hp
  rw [hpid] at hd₁ hres
  obtain rfl : d₁ = d := Option.some.inj (hd₁.symm.trans hd)
  split at hx
  · rename_i he
    have hparent : adoptive pid p.ppid p = p.ppid := by simp [adoptive]
    obtain ⟨ha,rfl,rfl⟩ | ⟨b,d',d'',hq,hd',hdet,rfl,rfl⟩ := leaveForeground_cases h hp hres hparent hx
    · exact .lost hp hpid (he ▸ hfg) ha
    · exact .removed hp hpid hd' hdet (Or.inr ⟨he ▸ hfg,rfl,hq⟩)
  · rename_i he
    obtain ⟨y,hy,-,-⟩ := hres.has_of hp
    obtain ⟨b,d',hdet,rfl,rfl⟩ := removeProcess_cases (h.resembles hres) hy hx
    rw [hfg]
    exact .removed hp hpid hres hdet (Or.inl ⟨hfg,he⟩)

/-- The kill of an orphan in front has handed on its children before it goes astray. -/
theorem killProcess_lost (h : s.Ok) (hx : s.killProcess pid = some (.lost,s')) : s'.Ok := by
  obtain ⟨slots,hs⟩ := h.queued
  obtain ⟨index,hindex,hx⟩ := Option.bind_eq_some_iff.mp hx
  obtain ⟨hn,-⟩ | ⟨r,p,hi,hp,hpid⟩ := hs.getProcessIndex pid
  · cases hindex.symm.trans hn
    cases hx
  cases hindex.symm.trans hi
  obtain ⟨d,hd,hx⟩ := Option.bind_eq_some_iff.mp hx
  obtain ⟨fg,-,hx⟩ := Option.bind_eq_some_iff.mp hx
  obtain ⟨d₁,hd₁,hres⟩ := hs.changeChildrenToOrphan h.distinct hp
  rw [hpid] at hd₁ hres
  obtain rfl : d₁ = d := Option.some.inj (hd₁.symm.trans hd)
  split at hx
  · obtain ⟨-,-,rfl⟩ | ⟨b,d',d'',-,-,-,he,-⟩ :=
      leaveForeground_cases h hp hres (by simp [adoptive]) hx
    · exact (h.resembles hres).foreground
    · cases b with
      | true => cases he
      | false => cases he
  · obtain ⟨y,hy,-,-⟩ := hres.has_of hp
    obtain ⟨b,d',-,he,-⟩ := removeProcess_cases (h.resembles hres) hy hx
    cases b with
    | true => cases he
    | false => cases he

end Session
end ComplexOS
