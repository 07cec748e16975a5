import ComplexOS.Scheduler.RunQueue

/-! # The choice of the next thread

Where the processes form a ring and so do the threads of each, the switch takes the
first process behind the current one that has a READY thread, and in it the first
READY thread behind the one it ran last.
-/
namespace ComplexOS
open SlotChains

namespace ProcessRecord
variable (p : ProcessRecord)

def InThreads (t : ℤ) : Prop := 0 ≤ t ∧ t < maxThreads

/-- The threads form one ring; `rest` are those behind the current one. -/
structure Threaded (rest : List ℤ) : Prop where
  ring : Ring p.link p.currentThread rest
  threads : ∀ t, t ∈ p.currentThread::rest ↔ InThreads t ∧ (p.threadState t).isSome

variable {p} {rest : List ℤ} {t u : ℤ} {st : ProcessState}

@[simp] theorem link_setThreadState : (p.setThreadState t st).link = p.link := by
  funext u
  by_cases h : u = t
  · subst h
    simp [link,setThreadState]
  · simp [link,setThreadState,h]

theorem threadState_set : (p.setThreadState t st).threadState u =
    if u = t then (p.threadState t).map (fun _ => st) else p.threadState u := by
  by_cases h : u = t
  · subst h
    simp [threadState,setThreadState,Function.comp_def]
  · simp [threadState,setThreadState,h]

theorem isSome_threadState_set :
    ((p.setThreadState t st).threadState u).isSome = (p.threadState u).isSome := by
  rw [threadState_set]
  split
  · rename_i h
    rw [h,Option.isSome_map]
  · rfl

theorem Threaded.setThreadState (h : p.Threaded rest) : (p.setThreadState t st).Threaded rest := by
  refine ⟨?_,fun u => ?_⟩
  · rw [link_setThreadState]
    exact h.ring
  · rw [isSome_threadState_set]
    exact h.threads u

theorem Threaded.fuel (h : p.Threaded rest) : rest.length < maxThreads.toNat :=
  length_le_slots (m := maxThreads.toNat) h.ring.nodup (fun u hu => ((h.threads u).mp hu).1)

theorem Threaded.passesOver (h : p.Threaded rest) (ht : t ∈ p.currentThread::rest) :
    p.passesOver p.currentThread t =
      some (decide (¬ p.threadState t = some .ready ∧ p.currentThread ≠ t)) := by
  obtain ⟨st,hst⟩ := Option.isSome_iff_exists.mp ((h.threads t).mp ht).2
  simp [ProcessRecord.passesOver,hst]

/-- The first READY thread behind the current one becomes the current one. -/
theorem nextThread_ready (h : p.Threaded rest)
    (ht : First (fun u => p.threadState u = some .ready) (rest++[p.currentThread]) t) :
    p.nextThread = some (t,{ p with currentThread := t }) := by
  have hwalk := h.ring.walk_some h.fuel (fun _ => h.passesOver) ht
  simp [nextThread,hwalk,ht.1]

theorem nextThread_none (h : p.Threaded rest)
    (hn : ∀ u, InThreads u → p.threadState u ≠ some .ready) : p.nextThread = some (-1,p) := by
  have hready : ∀ u ∈ p.currentThread::rest, ¬ p.threadState u = some .ready :=
    fun u hu => hn u ((h.threads u).mp hu).1
  have hwalk := h.ring.walk_none h.fuel (fun _ => h.passesOver) hready
  obtain ⟨st,hst⟩ := Option.isSome_iff_exists.mp ((h.threads _).mp List.mem_cons_self).2
  have hne : st ≠ .ready := fun he => hready _ List.mem_cons_self (he ▸ hst)
  simp [nextThread,hwalk,hst,hne]

end ProcessRecord

namespace Scheduler
open ProcessRecord
variable (s : Scheduler) (rest : List ℤ) (threads : ℤ → List ℤ)

def threadState (i t : ℤ) : Option ProcessState := (s.process? i).bind (fun p => p.threadState t)

def currentThread (i : ℤ) : Option ℤ := (s.process? i).map ProcessRecord.currentThread

structure Rings : Prop where
  ring : Ring s.link s.current rest
  live : ∀ i, i ∈ s.current::rest ↔ InTable i ∧ s.Live i
  threaded : ∀ i p, InTable i → s.process? i = some p → p.Threaded (threads i)

def OneRuns : Prop := ∀ i t, InTable i → InThreads t → s.threadState i t = some .running →
  i = s.current ∧ s.currentThread i = some t

/-- The state of a thread once the current thread, if it is RUNNING, is demoted. -/
def demoted (i t : ℤ) : Option ProcessState :=
  if i = s.current ∧ s.currentThread i = some t ∧ s.threadState i t = some .running then
    some .ready
  else s.threadState i t

def HasReady (i : ℤ) : Prop := ∃ t, InThreads t ∧ s.demoted i t = some .ready

structure Selects (s' : Scheduler) (slot t : ℤ) : Prop where
  process : First s.HasReady (rest++[s.current]) slot
  thread : ∃ c, s.currentThread slot = some c ∧
    First (fun u => s.demoted slot u = some .ready) (threads slot++[c]) t
  current : s'.current = slot
  state : ∀ i u, s'.threadState i u =
    if i = slot ∧ u = t then some .running else s.demoted i u
  currentThread : ∀ i, s'.currentThread i = if i = slot then some t else s.currentThread i
  onlyRunning : ∀ i u, InTable i → InThreads u →
    (s'.threadState i u = some .running ↔ i = slot ∧ u = t)
  queue : SameQueue { s with current := slot } s'

variable {s rest threads} {d s' : Scheduler} {i j t u : ℤ} {p : ProcessRecord}

theorem threadState_of (h : s.process? i = some p) : s.threadState i t = p.threadState t := by
  rw [threadState,h,Option.bind_some]

theorem currentThread_of (h : s.process? i = some p) :
    s.currentThread i = some p.currentThread := by
  rw [currentThread,h,Option.map_some]

theorem threadState_setProcess : (s.setProcess i (some p)).threadState j t =
    if j = i then p.threadState t else s.threadState j t := by
  rw [threadState,process?_setProcess]
  split
  · rfl
  · rfl

theorem currentThread_setProcess : (s.setProcess i (some p)).currentThread j =
    if j = i then some p.currentThread else s.currentThread j := by
  rw [currentThread,process?_setProcess]
  split
  · rfl
  · rfl

theorem setProcess_self (h : s.process? i = some p) : s.setProcess i (some p) = s := by
  have hn : { s.processes i with process := some p } = s.processes i := by
    rw [← h]
    rfl
  rw [setProcess,hn,Function.update_eq_self]

theorem Rings.fuel (h : s.Rings rest threads) : rest.length < maxProcesses :=
  length_le_slots h.ring.nodup (fun i hi => ((h.live i).mp hi).1)

/-- The demotion at the head of `nextProcess`. -/
theorem demoteCurrent_spec (h : s.Rings rest threads) :
    ∃ d, s.demoteCurrent = some d ∧ SameQueue s d ∧ d.Rings rest threads ∧
      (∀ i t, d.threadState i t = s.demoted i t) ∧ ∀ i, d.currentThread i = s.currentThread i := by
  obtain ⟨htable,hlive⟩ := (h.live s.current).mp List.mem_cons_self
  obtain ⟨p,hp⟩ := Option.isSome_iff_exists.mp hlive
  have hthreaded := h.threaded _ p htable hp
  obtain ⟨st,hst⟩ := Option.isSome_iff_exists.mp ((hthreaded.threads _).mp List.mem_cons_self).2
  rw [demoteCurrent,hp]
  simp only [hst,Option.map_some]
  by_cases hr : st = .running
  · rw [if_pos hr]
    have hsame := SameQueue.setProcess (p := p.setThreadState p.currentThread .ready) hlive
    refine ⟨_,rfl,hsame,⟨?_,fun i => ?_,fun i q hi hq => ?_⟩,fun i t => ?_,fun i => ?_⟩
    · rw [hsame.link,hsame.current]
      exact h.ring
    · rw [hsame.live,hsame.current]
      exact h.live i
    · rw [process?_setProcess] at hq
      split at hq
      · rename_i hic
        rw [← Option.some.inj hq,hic]
        exact hthreaded.setThreadState
      · exact h.threaded i q hi hq
    · rw [threadState_setProcess,demoted]
      by_cases hi : i = s.current
      · rw [if_pos hi,threadState_set,hi,threadState_of hp,currentThread_of hp]
        by_cases ht : t = p.currentThread
        · simp [ht,hst,hr]
        · simp [ht,Ne.symm ht]
      · simp [hi]
    · rw [currentThread_setProcess]
      split
      · rename_i hi
        rw [hi,currentThread_of hp]
        rfl
      · rfl
  · rw [if_neg hr]
    refine ⟨_,rfl,SameQueue.refl s,h,fun i t => ?_,fun i => rfl⟩
    rw [demoted,if_neg]
    rintro ⟨rfl,hc,hs⟩
    rw [currentThread_of hp,Option.some.injEq] at hc
    rw [threadState_of hp,← hc,hst,Option.some.injEq] at hs
    exact hr hs

/-- The walk passes over the processes that have nothing READY, without a change, and
stops at the first that has. -/
theorem findProcess_path {first slot found e : ℤ} {pre post : List ℤ} {n : ℕ} {p' : ProcessRecord}
    (hp : Path s.link (s.link i) (pre++slot::post) e)
    (hpre : ∀ k ∈ pre, first ≠ k ∧ ∃ q, s.process? k = some q ∧ q.nextThread = some (-1,q))
    (hq : s.process? slot = some p) (hnext : p.nextThread = some (found,p')) (hf : found ≠ -1)
    (hn : pre.length < n) :
    findProcess first n i s = some (slot,s.setProcess slot (some p')) := by
  induction pre generalizing i n with
  | nil =>
    obtain ⟨m,rfl⟩ := Nat.exists_eq_add_of_lt hn
    obtain rfl : s.link i = slot := hp.1
    simp [findProcess,hq,hnext,hf]
  | cons k pre ih =>
    obtain ⟨m,rfl⟩ := Nat.exists_eq_succ_of_ne_zero (Nat.ne_zero_of_lt hn)
    obtain ⟨hk,hp⟩ := hp
    obtain ⟨hfirst,q,hqk,hqn⟩ := hpre k List.mem_cons_self
    have hrec := ih (i := k) hp (fun j hj => hpre j (List.mem_cons_of_mem _ hj))
      (Nat.lt_of_succ_lt_succ hn)
    simp only [findProcess,hk,hqk,hqn,Option.bind_eq_bind,Option.bind_some,
      setProcess_self hqk,true_and,ne_eq,hfirst,not_false_eq_true,if_true]
    exact hrec

/-- Among rings with something READY the walk ends at the first process that has it. -/
theorem Rings.findProcess (h : d.Rings rest threads) {P : ℤ → Prop}
    (hP : ∀ i, P i ↔ ∃ t, InThreads t ∧ d.threadState i t = some .ready)
    (hx : ∃ i, InTable i ∧ P i) :
    ∃ slot p t, First P (rest++[d.current]) slot ∧ InTable slot ∧ d.process? slot = some p ∧
      First (fun u => p.threadState u = some .ready) (threads slot++[p.currentThread]) t ∧
        Scheduler.findProcess d.current maxProcesses d.current d =
          some (slot,d.setProcess slot (some { p with currentThread := t })) := by
  have hready : ∀ {i p}, d.process? i = some p →
      (P i ↔ ∃ t, InThreads t ∧ p.threadState t = some .ready) := by
    intro i p hp
    rw [hP]
    simp only [threadState_of hp]
  have hmem : ∃ i ∈ rest++[d.current], P i := by
    obtain ⟨i,hi,hPi⟩ := hx
    obtain ⟨t,-,ht⟩ := (hP i).mp hPi
    have hlive : d.Live i := by
      rw [Live,Option.isSome_iff_exists]
      cases hp : d.process? i with
      | none =>
        rw [threadState,hp] at ht
        cases ht
      | some p => exact ⟨p,rfl⟩
    exact ⟨i,by simpa [or_comm] using (h.live i).mpr ⟨hi,hlive⟩,hPi⟩
  obtain ⟨slot,hfirst⟩ := exists_first hmem
  obtain ⟨htable,hlive⟩ := (h.live slot).mp hfirst.mem
  obtain ⟨p,hp⟩ := Option.isSome_iff_exists.mp hlive
  have hthreaded := h.threaded slot p htable hp
  obtain ⟨u,hu,hur⟩ := (hready hp).mp hfirst.1
  have humem : ∃ u ∈ threads slot++[p.currentThread], p.threadState u = some .ready := by
    refine ⟨u,?_,hur⟩
    simpa [or_comm] using (hthreaded.threads u).mpr ⟨hu,by rw [hur]; rfl⟩
  obtain ⟨t,ht⟩ := exists_first humem
  have htid := ((hthreaded.threads t).mp ht.mem).1
  obtain ⟨hPs,pre,post,hl,hpre⟩ := hfirst
  refine ⟨slot,p,t,⟨hPs,pre,post,hl,hpre⟩,htable,hp,ht,?_⟩
  refine findProcess_path (hl ▸ h.ring.order) (fun k hk => ⟨(h.ring.pre_ne hl hk).symm,?_⟩) hp
    (nextThread_ready hthreaded ht) (fun he => ?_) ((pre_length hl).trans_lt h.fuel)
  · obtain ⟨hkt,hkl⟩ := (h.live k).mp (mem_of_order hl (List.mem_append_left _ hk))
    obtain ⟨q,hq⟩ := Option.isSome_iff_exists.mp hkl
    exact ⟨q,hq,nextThread_none (h.threaded k q hkt hq)
      (fun v hv hvr => hpre k hk ((hready hq).mpr ⟨v,hv,hvr⟩))⟩
  · rw [he] at htid
    exact absurd htid.1 (by decide)

theorem OneRuns.not_demoted (h : s.OneRuns) (hi : InTable i) (ht : InThreads t) :
    s.demoted i t ≠ some .running := by
  intro hd
  rw [demoted] at hd
  split at hd
  · cases hd
  · rename_i hn
    obtain ⟨hc,hct⟩ := h i t hi ht hd
    exact hn ⟨hc,hct,hd⟩

/-- `nextProcess` ends, and runs the first READY thread of the first process that has
one, in the order of the two rings. -/
theorem nextProcess_selects (h : s.Rings rest threads) (hrun : s.OneRuns) (hl : s.changeLock = 0)
    (hx : ∃ i, InTable i ∧ s.HasReady i) :
    ∃ s' slot t, s.nextProcess = some s' ∧ s.Selects rest threads s' slot t := by
  obtain ⟨d,hd,hsame,hrings,hstate,hcurrent⟩ := demoteCurrent_spec h
  obtain ⟨slot,p,t,hfirst,htable,hp,ht,hfind⟩ := hrings.findProcess (P := s.HasReady)
    (fun i => by simp only [HasReady,hstate]) hx
  let p' : ProcessRecord := { p with currentThread := t }
  have hproc : (d.setProcess slot (some p')).process? slot = some p' := by
    rw [process?_setProcess,if_pos rfl]
  have hnext : s.nextProcess = some { (d.setProcess slot (some p')).setProcess slot
      (some (p'.setThreadState t .running)) with
      current := slot
      quantum := fullQuantum } := by
    rw [nextProcess,if_neg (by rw [hl]; decide),hd]
    simp only [Option.bind_eq_bind,Option.bind_some,hfind]
    rw [hproc]
    rfl
  have hstate' : ∀ i u, threadState { (d.setProcess slot (some p')).setProcess slot
      (some (p'.setThreadState t .running)) with
      current := slot
      quantum := fullQuantum } i u = if i = slot ∧ u = t then some .running else s.demoted i u := by
    intro i u
    change ((d.setProcess slot (some p')).setProcess slot
      (some (p'.setThreadState t .running))).threadState i u = _
    rw [threadState_setProcess,threadState_setProcess,← hstate]
    by_cases hi : i = slot
    · have htr : p'.threadState t = some .ready := ht.1
      rw [if_pos hi,ProcessRecord.threadState_set,hi,threadState_of hp,htr]
      by_cases hu : u = t
      · simp [hu]
      · simp only [hu,if_false,and_false]
        rfl
    · simp [hi]
  obtain ⟨-,hqueue⟩ := nextProcess_same (S := (· ∈ s.current::rest)) hl
    (fun k => h.ring.next_mem) (h.ring.next_mem List.mem_cons_self) hnext
  refine ⟨_,slot,t,hnext,⟨hsame.current ▸ hfirst,⟨p.currentThread,?_,?_⟩,rfl,hstate',?_,?_,hqueue⟩⟩
  · rw [← hcurrent,currentThread_of hp]
  · simpa only [← hstate,threadState_of hp] using ht
  · intro i
    change ((d.setProcess slot (some p')).setProcess slot
      (some (p'.setThreadState t .running))).currentThread i = _
    rw [currentThread_setProcess,currentThread_setProcess,← hcurrent]
    by_cases hi : i = slot
    · rw [if_pos hi,if_pos hi]
      rfl
    · simp [hi]
  · intro i u hi hu
    rw [hstate']
    constructor
    · intro hr
      by_contra hn
      rw [if_neg hn] at hr
      exact hrun.not_demoted hi hu hr
    · intro he
      rw [if_pos he]

/-- The current process has one thread, which runs; the other has a BLOCKED thread, its
current one, and a READY one. -/
def twoProcesses : Scheduler where
  processes := fun i =>
    if i = 0 then ⟨1,some ⟨1,0,0,fun t => if t = 0 then ⟨0,some ⟨.running,notWaiting,0⟩⟩ else ⟨0,none⟩,0⟩⟩
    else if i = 1 then ⟨0,some ⟨2,0,0,fun t => if t = 0 then ⟨1,some ⟨.blocked,notWaiting,0⟩⟩
      else if t = 1 then ⟨0,some ⟨.ready,notWaiting,0⟩⟩ else ⟨0,none⟩,0⟩⟩
    else ⟨0,none⟩
  firstAvailableSpace := 2
  current := 0
  processQuantity := 2
  quantum := 0
  changeLock := 0
  lockQuantumExceded := 0

theorem nextProcess_selects_two : ∃ s' slot t, twoProcesses.nextProcess = some s' ∧
    twoProcesses.Selects [1] (fun i => if i = 1 then [1] else []) s' slot t := by
  refine nextProcess_selects ⟨⟨by decide,⟨rfl,rfl⟩⟩,fun i => ?_,fun i p hi hp => ?_⟩
    (fun i t _ _ hr => ?_) rfl ⟨1,⟨by decide,by decide⟩,1,⟨by decide,by decide⟩,rfl⟩
  · by_cases h0 : i = 0
    · subst h0
      decide
    · by_cases h1 : i = 1
      · subst h1
        decide
      · simp [twoProcesses,Live,process?,h0,h1]
  · by_cases h0 : i = 0
    · subst h0
      cases hp
      refine ⟨⟨by decide,rfl⟩,fun t => ?_⟩
      by_cases ht : t = 0 <;> simp [ProcessRecord.threadState,ht,InThreads,maxThreads]
    · by_cases h1 : i = 1
      · subst h1
        cases hp
        refine ⟨⟨by decide,⟨rfl,rfl⟩⟩,fun t => ?_⟩
        by_cases ht : t = 0
        · simp [ProcessRecord.threadState,ht,InThreads,maxThreads]
        · by_cases ht' : t = 1 <;>
            simp [ProcessRecord.threadState,ht,ht',InThreads,maxThreads]
      · simp [twoProcesses,process?,h0,h1] at hp
  · by_cases h0 : i = 0
    · subst h0
      by_cases ht : t = 0
      · subst ht
        exact ⟨rfl,rfl⟩
      · simp [twoProcesses,Scheduler.threadState,process?,ProcessRecord.threadState,ht] at hr
    · by_cases h1 : i = 1
      · subst h1
        by_cases ht : t = 0
        · simp [twoProcesses,Scheduler.threadState,process?,ProcessRecord.threadState,ht] at hr
        · by_cases ht' : t = 1 <;>
            simp [twoProcesses,Scheduler.threadState,process?,ProcessRecord.threadState,ht,ht'] at hr
      · simp [twoProcesses,Scheduler.threadState,process?,h0,h1] at hr

end Scheduler
end ComplexOS
