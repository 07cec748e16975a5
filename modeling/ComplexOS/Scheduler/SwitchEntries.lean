import ComplexOS.Scheduler.ForegroundRuns
import ComplexOS.Scheduler.ThreadWalks

/-! # Entries of the switch

The handlers of the yield and of the timer store the stack pointer through the current thread
of the current process before they choose another one. Each call is taken up to its last yield,
which is a step of its own, and a kill up to the yield inside it. What is known of no state
any more, behind a store through an unknown pointer or in front of the table, is no step.
-/
namespace ComplexOS
open SlotChains

inductive SwitchStep
  | sysRunProcess (memory : ProcessRecord) (memoryBase : ℕ) (background : Bool)
  | killProcess (pid : ℤ)
  | killForeground
  | killCurrent
  | sysAddThread (thread : Thread)
  | killThread (pid t : ℤ)
  | sysKillThread (t : ℤ)
  | callProcess
  | changeThreadState (pid t : ℤ) (st : ProcessState)
  | yieldHandler
  | irq0Handler

namespace Scheduler
variable (s : Scheduler)

def Present : Prop :=
  ∃ p, s.process? s.current = some p ∧ (p.threads p.currentThread).thread.isSome

/-- The switch can be entered: nothing is read through NULL before the search for the next
process. -/
structure Enters : Prop where
  present : s.Present
  stack : s.switchToKernelStack = some s
  demote : s.demoteCurrent.isSome

end Scheduler

namespace Session
variable (s : Session)

/-- The slot of `getProcess(getpid())`. -/
def caller : Option ℤ :=
  s.scheduler.getpid.bind (fun pid => (s.scheduler.getProcessIndex pid).bind id)

def sysAddThread (thread : Thread) : Option Session :=
  s.caller.bind (fun i => (s.scheduler.process? i).map (fun p =>
    { s with scheduler := s.scheduler.setProcess i (some (p.addThread thread).1) }))

/-- The cleanup of the blocked lists in front of it is left out. -/
def killThread (pid t : ℤ) : Option (Ending × Session) :=
  (s.scheduler.getProcessIndex pid).bind (fun index => match index with
    | none => some (.returned,s)
    | some i => s.terminateThread i t)

def sysKillThread (t : ℤ) : Option (Ending × Session) := s.caller.bind (fun i => s.terminateThread i t)

def callProcess : Option (Ending × Session) :=
  s.caller.bind (fun i => (s.scheduler.process? i).bind (fun p => s.terminateThread i p.currentThread))

def yieldHandler : Option Session :=
  (s.scheduler.switchToKernelStack.bind Scheduler.nextProcess).map (fun d => { s with scheduler := d })

/-- What the timer counts is left out. -/
def irq0Handler : Option Session :=
  (s.scheduler.switchToKernelStack.bind Scheduler.schedule).map (fun d => { s with scheduler := d })

def reached (x : Ending × Session) : Option Session := if x.1 = .lost then none else some x.2

def switchStep (s : Session) : SwitchStep → Option Session
  | .sysRunProcess memory memoryBase background =>
    if s.HasSlot then s.sysRunProcess memory memoryBase background else none
  | .killProcess pid => (s.killProcess pid).bind reached
  | .killForeground => s.killForeground.bind reached
  | .killCurrent => s.killCurrent.bind reached
  | .sysAddThread thread => s.sysAddThread thread
  | .killThread pid t => (s.killThread pid t).bind reached
  | .sysKillThread t => (s.sysKillThread t).bind reached
  | .callProcess => s.callProcess.bind reached
  | .changeThreadState pid t st =>
    (s.scheduler.changeThreadState pid t st).map (fun d => { s with scheduler := d })
  | .yieldHandler => s.yieldHandler
  | .irq0Handler => s.irq0Handler

def Running (t : ℤ) : Prop :=
  ∃ p, s.scheduler.process? s.scheduler.current = some p ∧ t = p.currentThread ∧ p.Ahead t

def Spared (s : Session) : SwitchStep → Prop
  | .killProcess pid => s.scheduler.getpid ≠ some pid
  | .killForeground => s.scheduler.getpid ≠ s.foreground
  | .killCurrent => False
  | .killThread pid t => (t = 0 → s.scheduler.Absent pid) ∧
    (s.scheduler.getpid = some pid → ¬ s.Running t)
  | .sysKillThread t => t ≠ 0 ∧ ¬ s.Running t
  | .callProcess => ∀ p, s.scheduler.process? s.scheduler.current = some p →
    p.currentThread ≠ 0 ∧ ¬ p.Ahead p.currentThread
  | _ => True

end Session

namespace ProcessRecord
variable {p q : ProcessRecord} {t u first previous : ℤ} {n : ℕ}

/-- A search in vain has been all the way around. -/
theorem findThread_missed (h : p.findThread t first n previous u = some none) :
    ∃ js, js ≠ [] ∧ Path p.link u js first ∧ t ∉ js := by
  induction n generalizing previous u with
  | zero => cases h
  | succ n ih =>
    unfold findThread at h
    split_ifs at h with hmatch hfirst
    · simp at h
    · exact ⟨[u],by simp,⟨rfl,hfirst⟩,by simpa using Ne.symm hmatch⟩
    · obtain ⟨js,-,hpath,hnot⟩ := ih h
      refine ⟨u::js,by simp,⟨rfl,hpath⟩,?_⟩
      simp [Ne.symm hmatch,hnot]

/-- What `terminateThread` has done: the search finds exactly the slots ahead. -/
theorem terminateThread_cases (h : p.terminateThread t = some q) :
    (¬ p.Ahead t ∧ q = p) ∨ (p.Ahead t ∧ q.pid = p.pid ∧ q.ppid = p.ppid ∧
      q.currentThread = p.currentThread ∧
        ∀ u, (q.threads u).thread.isSome ↔ u ≠ t ∧ (p.threads u).thread.isSome) := by
  unfold ProcessRecord.terminateThread at h
  obtain ⟨found,hf,h⟩ := Option.bind_eq_some_iff.mp h
  cases found with
  | none =>
    obtain rfl : p = q := by simpa using h
    refine Or.inl ⟨fun ha => ?_,rfl⟩
    obtain ⟨js,hne,hpath,hnot⟩ := findThread_missed hf
    have hfirst : p.link p.currentThread ∈ js := by
      cases js with
      | nil => exact absurd rfl hne
      | cons x xs => exact hpath.1 ▸ List.mem_cons_self
    have hall : ∀ u, p.Ahead u → u ∈ js := by
      intro u hu
      induction hu with
      | single hu => exact hu ▸ hfirst
      | tail _ hu ih =>
        rw [← hu]
        rcases List.mem_append.mp (hpath.next_mem ih) with hm | hm
        · exact hm
        · exact List.mem_singleton.mp hm ▸ hfirst
    exact hnot (hall t ha)
  | some a =>
    obtain ⟨th,-,rfl⟩ := Option.map_eq_some_iff.mp h
    obtain ⟨ha,hv⟩ := findThread_visited rfl (Or.inl rfl) hf
    have hahead : p.Ahead t := by
      rcases hv with rfl | hv
      · exact ha ▸ Reach.single _ _
      · exact ha ▸ hv.tail
    refine Or.inr ⟨hahead,rfl,rfl,rfl,fun u => ?_⟩
    rw [thread_release,thread_unlinkThread]
    by_cases hu : u = t
    · simp [hu]
    · by_cases hm : u ∈ threadSlots
      · simp [hu,hm]
      · simp [hu,hm]

theorem addThread_thread {thread : Thread} (h : (p.threads u).thread.isSome) :
    ((p.addThread thread).1.threads u).thread.isSome := by
  obtain ⟨hfull,-⟩ | ⟨hslot,-⟩ := p.firstAvailableThreadSpace_cases
  · rw [addThread_full hfull]
    exact h
  · rw [addThread_free hslot]
    dsimp only
    rw [thread_setLink,thread_setLink,thread_setThread]
    split
    · rfl
    · exact h

theorem addThread_same (p : ProcessRecord) (thread : Thread) : (p.addThread thread).1.pid = p.pid ∧
    (p.addThread thread).1.ppid = p.ppid ∧
      (p.addThread thread).1.currentThread = p.currentThread := by
  obtain ⟨hfull,-⟩ | ⟨hslot,-⟩ := p.firstAvailableThreadSpace_cases
  · rw [addThread_full hfull]
    exact ⟨rfl,rfl,rfl⟩
  · rw [addThread_free hslot]
    exact ⟨rfl,rfl,rfl⟩

/-- The thread that `nextThread` leaves as the current one is there. -/
theorem nextThread_present (h : p.nextThread = some (t,q)) :
    (q.threads q.currentThread).thread.isSome := by
  unfold nextThread at h
  simp only [Option.bind_eq_bind,Option.bind_eq_some_iff] at h
  obtain ⟨next,-,st,hst,h⟩ := h
  have hlive : (p.threads next).thread.isSome := by
    rw [← isSome_threadState,hst]
    rfl
  split at h
  · rename_i hsame
    obtain ⟨-,rfl⟩ := Prod.mk.inj (Option.some.inj h)
    rw [hsame.1]
    exact hlive
  · obtain ⟨-,rfl⟩ := Prod.mk.inj (Option.some.inj h)
    exact hlive

end ProcessRecord

namespace Scheduler
open ProcessRecord
variable {s d : Scheduler} {p q : ProcessRecord} {i j : ℤ} {n : ℕ}

theorem Present.enters (h : s.Present) : s.Enters := by
  obtain ⟨p,hp,hth⟩ := h
  obtain ⟨th,hsome⟩ := Option.isSome_iff_exists.mp hth
  refine ⟨⟨p,hp,hth⟩,?_,?_⟩
  · unfold switchToKernelStack
    rw [hp,Option.bind_some,hsome,Option.map_some]
  · unfold demoteCurrent
    rw [hp]
    simp [ProcessRecord.threadState,hsome]

/-- Without the process or its thread the store of the stack pointer goes through NULL. -/
theorem switchToKernelStack_none (h : ¬ s.Present) : s.switchToKernelStack = none := by
  unfold switchToKernelStack
  rw [Option.bind_eq_none_iff]
  intro p hp
  rw [Option.map_eq_none_iff]
  by_contra hth
  exact h ⟨p,hp,Option.ne_none_iff_isSome.mp hth⟩

theorem findProcess_present {first : ℤ} (h : findProcess first n i s = some (j,d)) :
    ∃ q, d.process? j = some q ∧ (q.threads q.currentThread).thread.isSome := by
  induction n generalizing i s with
  | zero => cases h
  | succ n ih =>
    simp only [findProcess,Option.bind_eq_bind,Option.bind_eq_some_iff] at h
    obtain ⟨p,hp,⟨found,q⟩,hnext,h⟩ := h
    split at h
    · exact ih h
    · obtain ⟨rfl,rfl⟩ := Prod.mk.inj (Option.some.inj h)
      refine ⟨q,?_,nextThread_present hnext⟩
      rw [process?_setProcess,if_pos rfl]

/-- The switch leaves a current thread that is there, whatever has become of the others. -/
theorem nextProcess_present (hl : s.changeLock = 0) (h : s.nextProcess = some d) : d.Present := by
  rw [nextProcess,if_neg (by rw [hl]; decide)] at h
  simp only [Option.bind_eq_bind,Option.bind_eq_some_iff] at h
  obtain ⟨s₁,-,⟨next,s₂⟩,h₂,p,hp,h⟩ := h
  obtain ⟨q,hq,hth⟩ := findProcess_present h₂
  obtain rfl : p = q := Option.some.inj (hp.symm.trans hq)
  rw [← Option.some.inj h]
  refine ⟨p.setThreadState p.currentThread .running,?_,?_⟩
  · exact process?_setProcess.trans (if_pos rfl)
  · rw [← isSome_threadState] at hth ⊢
    rw [isSome_threadState_set]
    exact hth

end Scheduler

namespace Session
open Scheduler ProcessRecord Runs
variable {s s' : Session} {d d' : Scheduler} {p q memory : ProcessRecord} {i j r pid t : ℤ} {a : ℕ}
  {e : Ending} {background b : Bool} {l : SwitchStep} {parent : ProcessRecord → ℤ} {st : ProcessState}

structure Entering (s : Session) : Prop where
  ok : s.Ok
  quantity : s.scheduler.processQuantity ≠ 0
  present : s.scheduler.Present

/-- The process that runs. -/
theorem Entering.current (h : s.Entering) : ∃ p, s.scheduler.Has s.scheduler.current p ∧
    (p.threads p.currentThread).thread.isSome ∧ s.scheduler.getpid = some p.pid ∧
      s.caller = some s.scheduler.current := by
  obtain ⟨slots,hs⟩ := h.ok.queued
  obtain ⟨p,hp,hth⟩ := h.present
  have htable := ((hs.live _).mp (hs.current_mem h.quantity)).1
  have hpid : s.scheduler.getpid = some p.pid := by
    unfold Scheduler.getpid
    rw [if_neg h.quantity,hp,Option.map_some]
  refine ⟨p,⟨htable,hp⟩,hth,hpid,?_⟩
  unfold caller
  rw [hpid,Option.bind_some,hs.getProcessIndex_has h.ok.distinct ⟨htable,hp⟩]
  rfl

/-- Parents and states of threads do not matter. -/
theorem Entering.resembles (h : s.Entering) (hd : Resembles parent s.scheduler d) :
    Entering { s with scheduler := d } := by
  obtain ⟨p,hp,hth,-,-⟩ := h.current
  obtain ⟨q,hq,hsim,-⟩ := hd.has_of hp
  refine ⟨h.ok.resembles hd,?_,q,?_,?_⟩
  · rw [hd.queue.quantity]
    exact h.quantity
  · rw [hd.queue.current]
    exact hq.2
  · rw [hsim.currentThread,← isSome_threadState,hsim.thread,isSome_threadState]
    exact hth

theorem Entering.foreground {fg : Option ℤ} (h : s.Entering) : Entering { s with foreground := fg } :=
  ⟨h.ok.foreground,h.quantity,h.present⟩

/-- A record is replaced, and its current thread is still there if the process runs. -/
theorem Entering.setProcess (h : s.Entering) (hp : s.scheduler.process? i = some p)
    (hpid : q.pid = p.pid) (hppid : q.ppid = p.ppid)
    (hth : i = s.scheduler.current → (q.threads q.currentThread).thread.isSome) :
    Entering { s with scheduler := s.scheduler.setProcess i (some q) } := by
  refine ⟨(h.ok.update hp hpid hppid).1,h.quantity,?_⟩
  by_cases hi : i = s.scheduler.current
  · refine ⟨q,?_,hth hi⟩
    exact process?_setProcess.trans (if_pos hi.symm)
  · obtain ⟨x,hx,hxt⟩ := h.present
    refine ⟨x,?_,hxt⟩
    exact process?_setProcess.trans ((if_neg (Ne.symm hi)).trans hx)

/-! ### Creations -/

/-- A new process goes in behind the current one, which stays as it is. -/
theorem Entering.added (h : s.Entering) (hp : Created s p) (hj : Added s.scheduler p j d) :
    Entering ⟨d,s.foreground,s.nextPid+1⟩ := by
  obtain ⟨c,hc,hth,-,-⟩ := h.current
  have hne : s.scheduler.current ≠ j := by
    intro he
    exact hj.free (he ▸ live_of_process hc.2)
  have hpos : 0 < p.pid := hp.pid ▸ h.ok.nextPid
  have hnext : p.pid < s.nextPid+1 := hp.pid ▸ Int.lt_succ _
  obtain ⟨slots,hs⟩ := hj.queued
  refine ⟨h.ok.created.added hj hpos hnext (h.ok.absent hp.pid.ge),fun h0 => ?_,c,?_,hth⟩
  · have hmem := hs.mem (hj.has.mpr (Or.inl hc))
    rw [hs.empty h0] at hmem
    cases hmem
  · change d.process? d.current = some c
    rw [hj.current h.quantity,hj.process,if_neg hne]
    exact hc.2

theorem Entering.sysRunProcess (h : s.Entering) (hv : s.HasSlot)
    (hx : s.sysRunProcess memory a background = some s') : s'.Entering := by
  obtain ⟨p,hp,d,hd,hx⟩ := sysRunProcess_cases h.ok hv hx
  have hadd : Entering ⟨d,s.foreground,s.nextPid+1⟩ := by
    rcases hd with ⟨-,rfl⟩ | ⟨-,j,hj⟩
    · exact ⟨h.ok.created,h.quantity,h.present⟩
    · exact h.added hp hj
  rcases hx with ⟨-,rfl⟩ | ⟨-,d',hd',rfl⟩
  · exact hadd
  · exact (hadd.resembles hd').foreground

theorem Entering.sysAddThread {thread : Thread} (h : s.Entering)
    (hx : s.sysAddThread thread = some s') : s'.Entering := by
  obtain ⟨p,hp,hth,-,hcaller⟩ := h.current
  unfold Session.sysAddThread at hx
  rw [hcaller,Option.bind_some,hp.2,Option.map_some] at hx
  obtain rfl := Option.some.inj hx
  obtain ⟨hpid,hppid,hcurrent⟩ := addThread_same p thread
  refine h.setProcess hp.2 hpid hppid (fun _ => ?_)
  rw [hcurrent]
  exact addThread_thread hth

/-! ### Kills -/

/-- The kill of another process leaves the one that runs. The kill of the current one empties
its slot. -/
theorem Entering.killed (h : s.Entering) (hk : Killed s pid e s') (he : e ≠ .lost) :
    (s.scheduler.getpid ≠ some pid → s'.Entering) ∧
      (s.scheduler.getpid = some pid → ¬ s'.scheduler.Present) := by
  obtain ⟨c,hc,hth,hgetpid,-⟩ := h.current
  cases hk with
  | absent ha =>
    refine ⟨fun _ => h,fun hpid => ?_⟩
    exact absurd (Option.some.inj (hgetpid.symm.trans hpid)) (ha _ c hc.1 hc.2)
  | lost => exact absurd rfl he
  | removed hp hpid hd hd' hf =>
    rename_i r p d d' b fg
    have hcurrent := hd.queue.current
    constructor
    · intro hne
      have hr : r ≠ s.scheduler.current := by
        rintro rfl
        rw [hgetpid,hc.eq hp,hpid] at hne
        exact hne rfl
      obtain ⟨rfl,hcur⟩ := hd'.current (by rw [hcurrent]; exact hr)
      obtain ⟨x,hx,hsim,-⟩ := hd.has_of hc
      have hprocess : d'.process? s.scheduler.current = some x := by
        rw [hd'.process,if_neg hr.symm]
        exact hx.2
      have hok : Ok ⟨d,some fg,s.nextPid⟩ := (h.ok.resembles hd).foreground
      obtain ⟨y,hy,-,-⟩ := hd.has_of hp
      have hrem : Removed d y.pid d' r := hd'.removed hy.2 hok.unlocked rfl
      obtain ⟨slots,hs⟩ := hrem.queued
      refine ⟨hok.removed hrem ?_,fun h0 => ?_,x,?_,?_⟩
      · intro k z hz
        obtain ⟨hz,-⟩ := hd'.has.mp hz
        exact ⟨z,hz,rfl,rfl⟩
      · have hmem := hs.mem ⟨hc.1,hprocess⟩
        rw [hs.empty h0] at hmem
        cases hmem
      · rw [← hprocess]
        exact congrArg d'.process? (hcur.trans hcurrent)
      · rw [hsim.currentThread,← isSome_threadState,hsim.thread,isSome_threadState]
        exact hth
    · rintro heq ⟨x,hx,-⟩
      have hpc : p.pid = c.pid := hpid.trans (Option.some.inj (hgetpid.symm.trans heq)).symm
      have hr : r = s.scheduler.current := h.ok.distinct r _ p c hp hc hpc
      exact hd'.gone (hr.trans hcurrent.symm) (live_of_process hx)

theorem Entering.kill (h : s.Entering) (hx : (s.killProcess pid).bind reached = some s') :
    (s.scheduler.getpid ≠ some pid → s'.Entering) ∧
      (s.scheduler.getpid = some pid → ¬ s'.scheduler.Present) := by
  obtain ⟨⟨e,s₁⟩,hk,hx⟩ := Option.bind_eq_some_iff.mp hx
  obtain ⟨hlost,hx⟩ := Option.ite_none_left_eq_some.mp hx
  obtain rfl := Option.some.inj hx
  exact h.killed (killProcess_cases h.ok hk) hlost

theorem Entering.killCurrent (h : s.Entering) (hx : s.killCurrent.bind reached = some s') :
    ¬ s'.scheduler.Present := by
  obtain ⟨c,hc,-,hgetpid,-⟩ := h.current
  have hkill : s.killCurrent = s.killProcess c.pid := by
    unfold Session.killCurrent
    rw [hc.2,Option.bind_some]
  rw [hkill] at hx
  exact (h.kill hx).2 hgetpid

/-! ### Terminations -/

/-- What `terminateThread` makes of the session, for a process in the table. -/
theorem Entering.terminateThread (h : s.Entering) (hp : s.scheduler.Has i p)
    (hx : (s.terminateThread i t).bind reached = some s') :
    (t ≠ 0 ∧ ¬ (i = s.scheduler.current ∧ s.Running t) → s'.Entering) ∧
      (t = 0 ∨ i = s.scheduler.current ∧ s.Running t → ¬ s'.scheduler.Present) := by
  by_cases ht : t = 0
  · have hzero : s.terminateThread i t = s.killCurrent := by
      unfold Session.terminateThread
      rw [hp.2,Option.bind_some,if_pos ht]
    rw [hzero] at hx
    exact ⟨fun hne => absurd ht hne.1,fun _ => h.killCurrent hx⟩
  obtain ⟨slots,hs⟩ := h.ok.queued
  rw [terminateThread_record hp.2 (hs.getProcessIndex_has h.ok.distinct hp) ht] at hx
  obtain ⟨y,hy,hx⟩ := Option.bind_eq_some_iff.mp hx
  obtain ⟨q,hq,rfl⟩ := Option.map_eq_some_iff.mp hy
  obtain rfl : { s with scheduler := s.scheduler.setProcess i (some q) } = s' := by
    simpa [reached] using hx
  obtain ⟨c,hc,hth,-,-⟩ := h.current
  have hrunning : s.Running t ↔ t = c.currentThread ∧ c.Ahead t := by
    unfold Running
    rw [hc.2]
    simp
  obtain ⟨hnot,rfl⟩ | ⟨hahead,hpid,hppid,hcurrent,hthreads⟩ := terminateThread_cases hq
  · refine ⟨fun _ => ?_,fun hbad => ?_⟩
    · rw [setProcess_self hp.2]
      exact h
    · obtain hzero | ⟨rfl,hr⟩ := hbad
      · exact absurd hzero ht
      · obtain rfl := hp.eq hc
        exact absurd (hrunning.mp hr).2 hnot
  · refine ⟨fun hgood => h.setProcess hp.2 hpid hppid (fun hi => ?_),fun hbad => ?_⟩
    · subst hi
      obtain rfl := hp.eq hc
      rw [hcurrent,hthreads]
      refine ⟨fun he => hgood.2 ⟨rfl,?_⟩,hth⟩
      exact hrunning.mpr ⟨he.symm,hahead⟩
    · obtain hzero | ⟨rfl,hr⟩ := hbad
      · exact absurd hzero ht
      · obtain rfl := hp.eq hc
        rintro ⟨x,hx,hxt⟩
        obtain rfl : q = x := by
          refine Option.some.inj (Eq.trans ?_ hx)
          exact (process?_setProcess.trans (if_pos rfl)).symm
        rw [hcurrent,hthreads] at hxt
        exact hxt.1 (hrunning.mp hr).1.symm

theorem Entering.killThread (h : s.Entering) (hx : (s.killThread pid t).bind reached = some s') :
    (s.Spared (.killThread pid t) → s'.Entering) ∧
      (¬ s.Spared (.killThread pid t) → ¬ s'.scheduler.Present) := by
  obtain ⟨slots,hs⟩ := h.ok.queued
  obtain ⟨c,hc,-,hgetpid,-⟩ := h.current
  unfold Session.killThread at hx
  obtain ⟨hn,ha⟩ | ⟨i,p,hi,hp,hpid⟩ := hs.getProcessIndex pid
  · rw [hn] at hx
    obtain rfl : s = s' := by simpa [reached] using hx
    refine ⟨fun _ => h,fun hn => absurd ⟨fun _ => ha,fun hcur => ?_⟩ hn⟩
    exact absurd (Option.some.inj (hgetpid.symm.trans hcur)) (ha _ c hc.1 hc.2)
  · rw [hi,Option.bind_some] at hx
    obtain ⟨hkeep,hlose⟩ := h.terminateThread hp hx
    have hself : s.scheduler.getpid = some pid ↔ i = s.scheduler.current := by
      rw [hgetpid,Option.some.injEq,← hpid]
      refine ⟨fun he => (h.ok.distinct _ i c p hc hp he).symm,?_⟩
      rintro rfl
      rw [hc.eq hp]
    have hthere : ¬ s.scheduler.Absent pid := fun ha => ha i p hp.1 hp.2 hpid
    simp only [Spared,hself]
    constructor
    · rintro ⟨h0,hrun⟩
      exact hkeep ⟨fun ht => hthere (h0 ht),fun hr => hrun hr.1 hr.2⟩
    · intro hn
      apply hlose
      by_cases ht : t = 0
      · exact Or.inl ht
      · refine Or.inr ?_
        by_contra hr
        exact hn ⟨fun h0 => absurd h0 ht,fun hi' hr' => hr ⟨hi',hr'⟩⟩

/-- A termination in the process that makes the call. -/
theorem Entering.ownThread (h : s.Entering)
    (hx : (s.terminateThread s.scheduler.current t).bind reached = some s') :
    (t ≠ 0 ∧ ¬ s.Running t → s'.Entering) ∧ (¬ (t ≠ 0 ∧ ¬ s.Running t) → ¬ s'.scheduler.Present) := by
  obtain ⟨c,hc,-,-,-⟩ := h.current
  obtain ⟨hkeep,hlose⟩ := h.terminateThread hc hx
  refine ⟨fun hs => hkeep ⟨hs.1,fun hr => hs.2 hr.2⟩,fun hn => hlose ?_⟩
  by_cases ht : t = 0
  · exact Or.inl ht
  · refine Or.inr ⟨rfl,?_⟩
    by_contra hr
    exact hn ⟨ht,hr⟩

/-! ### Switches -/

theorem Entering.nextProcess (h : s.Entering) (hx : s.scheduler.nextProcess = some d) :
    Entering { s with scheduler := d } := by
  obtain ⟨hok,hlive⟩ := h.ok.nextProcess h.quantity hx
  obtain ⟨c,hc,-,-,-⟩ := h.current
  refine ⟨hok,fun h0 => ?_,nextProcess_present h.ok.unlocked hx⟩
  obtain ⟨slots,hs⟩ := hok.queued
  have hmem := (hs.live s.scheduler.current).mpr ⟨hc.1,(hlive _).mpr (live_of_process hc.2)⟩
  rw [hs.empty h0] at hmem
  cases hmem

theorem Entering.quantum {n : ℤ} (h : s.Entering) :
    Entering { s with scheduler := { s.scheduler with quantum := n } } := by
  have hsame : Resembles ProcessRecord.ppid s.scheduler { s.scheduler with quantum := n } :=
    ⟨⟨rfl,fun _ => Iff.rfl,rfl,rfl,rfl,rfl⟩,fun i p hp => ⟨p,hp,ProcessRecord.Similar.refl p,rfl⟩⟩
  exact h.resembles hsame

theorem Entering.switch (h : s.Entering) (f : Scheduler → Option Scheduler)
    (hx : (s.scheduler.switchToKernelStack.bind f).map (fun d => { s with scheduler := d }) = some s') :
    ∃ d, f s.scheduler = some d ∧ s' = { s with scheduler := d } := by
  rw [h.present.enters.stack,Option.bind_some] at hx
  obtain ⟨d,hd,rfl⟩ := Option.map_eq_some_iff.mp hx
  exact ⟨d,hd,rfl⟩

/-- One step. The condition keeps the current thread there, and without it the step takes
it away. -/
theorem switchStep_spec (h : s.Entering) (hx : s.switchStep l = some s') :
    (s.Spared l → s'.Entering) ∧ (¬ s.Spared l → ¬ s'.scheduler.Present) := by
  obtain ⟨c,hc,-,-,hcaller⟩ := h.current
  cases l with
  | sysRunProcess memory memoryBase background =>
    obtain ⟨hv,hx⟩ := Option.ite_none_right_eq_some.mp hx
    exact ⟨fun _ => h.sysRunProcess hv hx,fun hn => absurd trivial hn⟩
  | killProcess pid =>
    obtain ⟨hkeep,hlose⟩ := h.kill hx
    exact ⟨hkeep,fun hn => hlose (not_not.mp hn)⟩
  | killForeground =>
    simp only [switchStep,Session.killForeground] at hx
    cases hf : s.foreground with
    | none =>
      rw [hf] at hx
      cases hx
    | some fg =>
      rw [hf,Option.bind_some] at hx
      obtain ⟨hkeep,hlose⟩ := h.kill hx
      unfold Spared
      rw [hf]
      exact ⟨hkeep,fun hn => hlose (not_not.mp hn)⟩
  | killCurrent => exact ⟨False.elim,fun _ => h.killCurrent hx⟩
  | sysAddThread thread => exact ⟨fun _ => h.sysAddThread hx,fun hn => absurd trivial hn⟩
  | killThread pid t => exact h.killThread hx
  | sysKillThread t =>
    simp only [switchStep,Session.sysKillThread] at hx
    rw [hcaller,Option.bind_some] at hx
    exact h.ownThread hx
  | callProcess =>
    simp only [switchStep,Session.callProcess] at hx
    rw [hcaller,Option.bind_some,hc.2,Option.bind_some] at hx
    have hspared : s.Spared .callProcess ↔ c.currentThread ≠ 0 ∧ ¬ s.Running c.currentThread := by
      unfold Spared Running
      rw [hc.2]
      simp
    rw [hspared]
    exact h.ownThread hx
  | changeThreadState pid t st =>
    obtain ⟨d,hd,rfl⟩ := Option.map_eq_some_iff.mp hx
    exact ⟨fun _ => h.resembles (changeThreadState_resembles hd),fun hn => absurd trivial hn⟩
  | yieldHandler =>
    obtain ⟨d,hd,rfl⟩ := h.switch Scheduler.nextProcess hx
    exact ⟨fun _ => h.nextProcess hd,fun hn => absurd trivial hn⟩
  | irq0Handler =>
    obtain ⟨d,hd,rfl⟩ := h.switch Scheduler.schedule hx
    refine ⟨fun _ => ?_,fun hn => absurd trivial hn⟩
    have hquantum := h.quantum (n := s.scheduler.quantum-1)
    unfold Scheduler.schedule at hd
    split at hd
    · exact hquantum.nextProcess hd
    · obtain rfl := Option.some.inj hd
      exact hquantum

theorem startSystem_entering {init shell : ProcessRecord} {a b : ℕ}
    (hx : startSystem init shell a b = some s) : s.Entering := by
  have hruled := startSystem_ruled hx
  obtain ⟨-,hcreated,-⟩ := startSystem_cases hx
  obtain ⟨slots,hs⟩ := hruled.ok.queued
  obtain ⟨p,hp⟩ := hs.mem_iff.mp (hs.current_mem hruled.quantity_ne)
  obtain ⟨n,hn⟩ := hcreated _ p hp
  refine ⟨hruled.ok,hruled.quantity_ne,p,hp.2,?_⟩
  rw [hn.currentThread,← isSome_threadState]
  exact (hn.thread 0 ⟨le_rfl,by decide⟩).mpr rfl

variable {s₀ : Session} {init shell : ProcessRecord} {ls : List SwitchStep}

/-- In every state of a run the switch can be entered, without a process or a thread that is
gone, exactly if no step of the run takes away the current process or its current thread. -/
theorem switch_entries {b : ℕ} (h₀ : startSystem init shell a b = some s₀)
    (h : run switchStep s₀ ls = some s) :
    Always switchStep (fun s => s.scheduler.Enters) s₀ ls ↔ Along switchStep Spared s₀ ls := by
  refine always_iff_along (I := Entering) (fun s hs => hs.present.enters)
    (fun s l t hs hl ht => (switchStep_spec hs ht).1 hl) (fun s l t hs ht hp => ?_)
    (startSystem_entering h₀) h
  by_contra hl
  exact (switchStep_spec hs ht).2 hl hp.present

/-- The first process ends a thread it has added, and the shell kills it afterwards. -/
theorem switch_entries_kill : ∃ s₀, startSystem (sample 0) (sample 0) 0 0 = some s₀ ∧
    Always switchStep (fun s => s.scheduler.Enters) s₀
      [.sysAddThread ⟨.ready,notWaiting,0⟩,.sysKillThread 1,.yieldHandler,.killProcess 1] := by
  have h₀ : startSystem (sample 0) (sample 0) 0 0 = some _ := rfl
  refine ⟨_,rfl,(switch_entries h₀ rfl).mpr ⟨trivial,fun s₁ h₁ => ⟨⟨by decide,?_⟩,fun s₂ h₂ =>
    ⟨trivial,fun s₃ h₃ => ⟨?_,fun _ _ => trivial⟩⟩⟩⟩⟩
  · rintro ⟨p,hp,ht,-⟩
    obtain rfl := Option.some.inj h₁
    obtain rfl := Option.some.inj hp
    cases ht
  · obtain rfl := Option.some.inj h₁
    obtain rfl := Option.some.inj h₂
    obtain rfl := Option.some.inj h₃
    exact fun hp => absurd (Option.some.inj hp) (by decide)

/-- A process in the background returns from its entry point, and so does the second thread of
the first process. -/
theorem not_switch_entries : ∃ s₀, startSystem (sample 0) (sample 0) 0 0 = some s₀ ∧
    (∃ s, run switchStep s₀ [.yieldHandler,.sysRunProcess (sample 0) 0 true,.yieldHandler,
      .callProcess] = some s ∧ s.scheduler.process? s.scheduler.current = none ∧
        s.scheduler.switchToKernelStack = none) ∧
    ∃ s p, run switchStep s₀ [.sysAddThread ⟨.ready,notWaiting,0⟩,.yieldHandler,.yieldHandler,
      .callProcess] = some s ∧ s.scheduler.process? s.scheduler.current = some p ∧
        (p.threads p.currentThread).thread = none ∧ s.scheduler.switchToKernelStack = none := by
  refine ⟨_,rfl,⟨_,rfl,rfl,rfl⟩,_,_,rfl,rfl,rfl,rfl⟩

end Session
end ComplexOS
