import ComplexOS.Library.Walks
import ComplexOS.Scheduler.ThreadRing

/-! # The walk of `nextThread`

The threads of one process under additions, terminations, joins, changes of state and
choices in any order. A thread that has terminated itself leaves `currentThread` on a slot
that no link leads to, so that the walk from it comes round to it no more and ends at a
READY thread only.
-/
namespace ComplexOS
open SlotChains

inductive ThreadStep
  | addThread (thread : Thread)
  | terminateThread (t : ℤ)
  | changeThreadState (t : ℤ) (st : ProcessState)
  | joinThread (t toJoin : ℤ)
  | nextThread

namespace ProcessRecord
variable (p : ProcessRecord) (t : ℤ)

/-- For another thread than `0`, in a process that the table of the scheduler holds. -/
def terminateThread : Option ProcessRecord :=
  (p.findThread t (p.link p.currentThread) maxThreads.toNat p.currentThread
    (p.link p.currentThread)).bind (fun found => match found with
      | none => some p
      | some previous => (p.threads t).thread.map (fun _ =>
        (p.unlinkThread previous t).release t threadSlots))

/-- `none` is the store through the NULL pointer of an empty slot. -/
def changeThreadState (st : ProcessState) : Option ProcessRecord :=
  if InThreads t then (p.threads t).thread.map (fun _ => p.setThreadState t st) else some p

/-- `joinThread` up to its yield. -/
def joinThread (toJoin : ℤ) : Option ProcessRecord :=
  if InThreads toJoin ∧ InThreads t then
    match (p.threads toJoin).thread with
    | none => some p
    | some _ => (p.threads t).thread.map (fun th =>
      p.setThread t (some { th with waitingThread := toJoin, state := .sleeping }))
  else none

def step : ThreadStep → Option ProcessRecord
  | .addThread thread => some (p.addThread thread).1
  | .terminateThread t => if t = 0 then none else p.terminateThread t
  | .changeThreadState t st => p.changeThreadState t st
  | .joinThread t toJoin => p.joinThread t toJoin
  | .nextThread => p.nextThread.map Prod.snd

def Ahead : Prop := Reach p.link p.currentThread t

structure FindsNext : Prop where
  ready : (∃ t, p.Ahead t ∧ p.threadState t = some .ready) →
    ∃ t, p.Ahead t ∧ p.threadState t = some .ready ∧
      p.nextThread = some (t,{ p with currentThread := t })
  none : (¬ ∃ t, p.Ahead t ∧ p.threadState t = some .ready) → p.nextThread = some (-1,p)

def Returns : Prop := ∃ t, p.Ahead t ∧ (t = p.currentThread ∨ p.threadState t = some .ready)

/-- No thread is terminated that two of the visited slots point at: one of them is on the
ring, and the other leads into it from a current slot that is off it. -/
def Single (p : ProcessRecord) : ThreadStep → Prop
  | .terminateThread t => ∀ u v, (u = p.currentThread ∨ p.Ahead u) →
      (v = p.currentThread ∨ p.Ahead v) → p.link u = t → p.link v = t → u = v
  | _ => True

/-- What is ahead is alive, and the walk can come to the main thread from everywhere. -/
structure Walkable : Prop where
  live : ∀ t, p.Ahead t → InThreads t ∧ (p.threadState t).isSome
  main : ∀ u, u = p.currentThread ∨ p.Ahead u → Reach p.link u 0

variable {p} {q p' : ProcessRecord} {t u previous toRemove first : ℤ} {n : ℕ} {st : ProcessState}
  {thread : Thread} {l : ThreadStep}

theorem passesOver_live (h : (p.threadState t).isSome) (c : ℤ) :
    p.passesOver c t = some (decide (¬ (t = c ∨ p.threadState t = some .ready))) := by
  obtain ⟨st,hst⟩ := Option.isSome_iff_exists.mp h
  simp [passesOver,hst,and_comm,eq_comm]

/-- From a walkable process the choice is right if the walk can return. -/
theorem Walkable.findsNext (h : p.Walkable) (hr : p.Returns) : p.FindsNext := by
  obtain ⟨t,ht,hstop⟩ := hr
  obtain ⟨l,j,hl,hpass,hj,hd⟩ := doWhile_stops (m := maxThreads.toNat)
    (P := fun t => t = p.currentThread ∨ p.threadState t = some .ready)
    (fun u hu => (h.live u hu).1) (fun u hu => passesOver_live (h.live u hu).2 _) ht hstop
  have hahead : p.Ahead j := hl.reach.1
  obtain ⟨st,hst⟩ := Option.isSome_iff_exists.mp (h.live j hahead).2
  by_cases hready : p.threadState j = some .ready
  · have hnext : p.nextThread = some (j,{ p with currentThread := j }) := by
      simp [nextThread,hd,hready]
    exact ⟨fun _ => ⟨j,hahead,hready,hnext⟩,fun hno => absurd ⟨j,hahead,hready⟩ hno⟩
  · obtain rfl : j = p.currentThread := hj.resolve_right hready
    have hnone : ¬ ∃ t, p.Ahead t ∧ p.threadState t = some .ready := by
      rintro ⟨u,hu,hur⟩
      rcases List.mem_append.mp (hl.closed hu) with hmem | hmem
      · exact hpass u hmem (Or.inr hur)
      · rw [List.mem_singleton.mp hmem] at hur
        exact hready hur
    have hst' : st ≠ .ready := fun he => hready (he ▸ hst)
    refine ⟨fun hsome => absurd hsome hnone,fun _ => ?_⟩
    simp [nextThread,hd,hst,hst']

/-- Otherwise no number of rounds ends the loop. -/
theorem Walkable.forever (h : p.Walkable) (hr : ¬ p.Returns) (n : ℕ) :
    doWhile p.link (p.passesOver p.currentThread) n p.currentThread = none := by
  apply doWhile_forever
  intro u hu
  rw [passesOver_live (h.live u hu).2]
  exact congrArg some (decide_eq_true (fun hstop => hr ⟨u,hu,hstop⟩))

theorem not_findsNext
    (hd : doWhile p.link (p.passesOver p.currentThread) maxThreads.toNat p.currentThread = none) :
    ¬ p.FindsNext := by
  intro hf
  have hno : p.nextThread = none := by simp [nextThread,hd]
  by_cases hready : ∃ t, p.Ahead t ∧ p.threadState t = some .ready
  · obtain ⟨t,-,-,ht⟩ := hf.ready hready
    rw [hno] at ht
    cases ht
  · have ht := hf.none hready
    rw [hno] at ht
    cases ht

theorem Walkable.findsNext_iff (h : p.Walkable) : p.FindsNext ↔ p.Returns := by
  refine ⟨fun hf => ?_,h.findsNext⟩
  by_contra hr
  exact not_findsNext (h.forever hr maxThreads.toNat) hf

/-! ### What the calls leave -/

/-- Only links and liveness count. -/
theorem Walkable.congr (h : p.Walkable) (hc : q.currentThread = p.currentThread)
    (hl : q.link = p.link) (ht : ∀ t, (p.threadState t).isSome → (q.threadState t).isSome) :
    q.Walkable := by
  refine ⟨fun t hr => ?_,fun u hu => ?_⟩
  · unfold Ahead at hr
    rw [hc,hl] at hr
    exact ⟨(h.live t hr).1,ht t (h.live t hr).2⟩
  · unfold Ahead at hu
    rw [hc,hl] at hu
    rw [hl]
    exact h.main u hu

theorem Walkable.created {s s' : Session} {memory : ProcessRecord} {a : ℕ}
    (h : s.createProcess memory a = some (p,s')) : p.Walkable := by
  obtain ⟨hp,-⟩ := Session.createProcess_cases h
  have hzero : ∀ t, Reach p.link 0 t → t = 0 := by
    intro t ht
    induction ht with
    | single ht => exact ht.symm.trans hp.link
    | tail _ ht ih => rw [← ht,ih,hp.link]
  have hself : Reach p.link 0 0 := Reach.of_eq hp.link
  refine ⟨fun t ht => ?_,fun u hu => ?_⟩
  · unfold Ahead at ht
    rw [hp.currentThread] at ht
    rw [hzero t ht]
    have hin : InThreads 0 := ⟨le_rfl,by decide⟩
    exact ⟨hin,(hp.thread 0 hin).mpr rfl⟩
  · unfold Ahead at hu
    rw [hp.currentThread] at hu
    rcases hu with rfl | hu
    · exact hself
    · rw [hzero u hu]
      exact hself

theorem Walkable.addThread (h : p.Walkable) (thread : Thread) :
    (p.addThread thread).1.Walkable := by
  obtain ⟨hfull,-⟩ | ⟨hslot,hfree⟩ := p.firstAvailableThreadSpace_cases
  · rw [addThread_full hfull]
    exact h
  rw [addThread_free hslot]
  generalize p.firstAvailableThreadSpace = f at hslot hfree ⊢
  have hnot : ¬ p.Ahead f := by
    intro hf
    have hlive := (h.live f hf).2
    rw [isSome_threadState,hfree] at hlive
    cases hlive
  have hstate : ∀ t, (p.threadState t).isSome →
      ((((p.setThread f (some thread)).setLink p.currentThread f).setLink f
        (p.link p.currentThread)).threadState t).isSome := by
    intro t ht
    rw [isSome_threadState] at ht ⊢
    rw [thread_setLink,thread_setLink,thread_setThread]
    split
    · rfl
    · exact ht
  have hlink : (((p.setThread f (some thread)).setLink p.currentThread f).setLink f
      (p.link p.currentThread)).link =
        Function.update (Function.update p.link p.currentThread f) f (p.link p.currentThread) := by
    rw [link_setLink,link_setLink,link_setThread]
  by_cases hfc : f = p.currentThread
  · refine h.congr rfl ?_ hstate
    rw [hlink,hfc,Function.update_idem,Function.update_eq_self]
  refine ⟨fun t ht => ?_,fun u hu => ?_⟩
  · unfold Ahead at ht
    rw [hlink] at ht
    rcases Reach.of_insert ht with rfl | ht
    · refine ⟨hslot,?_⟩
      rw [isSome_threadState,thread_setLink,thread_setLink,thread_setThread,if_pos rfl]
      rfl
    · exact ⟨(h.live t ht).1,hstate t (h.live t ht).2⟩
  · unfold Ahead at hu
    rw [hlink] at hu ⊢
    have hold : ∀ v, (v = p.currentThread ∨ p.Ahead v) → Reach (Function.update
        (Function.update p.link p.currentThread f) f (p.link p.currentThread)) v 0 :=
      fun v hv => Reach.insert hfc hnot hv (h.main v hv)
    rcases hu with rfl | hu
    · exact hold _ (Or.inl rfl)
    rcases Reach.of_insert hu with rfl | hu
    · have hnext : Function.update (Function.update p.link p.currentThread u) u
          (p.link p.currentThread) u = p.link p.currentThread := Function.update_self _ _ _
      have hr := hold (p.link p.currentThread) (Or.inr (Reach.single _ _))
      exact (Reach.of_eq hnext).trans hr
    · exact hold u (Or.inr hu)

/-- What the search answers is a visited slot that points at the thread. -/
theorem findThread_visited (hprev : p.link previous = toRemove)
    (hv : previous = p.currentThread ∨ p.Ahead previous)
    (h : p.findThread t first n previous toRemove = some (some u)) :
    p.link u = t ∧ (u = p.currentThread ∨ p.Ahead u) := by
  induction n generalizing previous toRemove with
  | zero => cases h
  | succ n ih =>
    unfold findThread at h
    split_ifs at h with hmatch hfirst
    · obtain rfl : previous = u := by simpa using h
      exact ⟨hprev.trans hmatch,hv⟩
    · simp at h
    · have hahead : p.Ahead toRemove := by
        rw [← hprev]
        rcases hv with rfl | hv
        · exact Reach.single _ _
        · exact hv.tail
      exact ih rfl (Or.inr hahead) h

theorem Walkable.terminateThread (h : p.Walkable) (ht : t ≠ 0) (hs : p.Single (.terminateThread t))
    (hp : p.terminateThread t = some p') : p'.Walkable := by
  unfold ProcessRecord.terminateThread at hp
  obtain ⟨found,hf,hp⟩ := Option.bind_eq_some_iff.mp hp
  cases found with
  | none =>
    obtain rfl : p = p' := by simpa using hp
    exact h
  | some a =>
    obtain ⟨th,-,rfl⟩ := Option.map_eq_some_iff.mp hp
    obtain ⟨ha,hav⟩ := findThread_visited rfl (Or.inl rfl) hf
    have hlink : ((p.unlinkThread a t).release t threadSlots).link =
        Function.update p.link a (p.link t) := by
      rw [link_release,link_unlinkThread]
    have hself : p.link t ≠ t := by
      intro hself
      have hahead : p.Ahead t := by
        rcases hav with rfl | hav
        · exact ha ▸ Reach.single _ _
        · exact ha ▸ hav.tail
      have hzero : ∀ u, Reach p.link t u → u = t := by
        intro u hu
        induction hu with
        | single hu => exact hu.symm.trans hself
        | tail _ hu ih => rw [← hu,ih,hself]
      exact ht (hzero 0 (h.main t (Or.inr hahead))).symm
    have hgone := Reach.not_unlink (c := p.currentThread) ha hself
      (fun x hx hxt => hs x a hx hav hxt ha)
    refine ⟨fun u hu => ?_,fun u hu => ?_⟩
    · unfold Ahead at hu
      rw [hlink] at hu
      have hut : u ≠ t := by
        rintro rfl
        exact hgone hu
      obtain ⟨hin,hlive⟩ := h.live u (Reach.of_unlink ha hu)
      refine ⟨hin,?_⟩
      rw [isSome_threadState] at hlive ⊢
      rw [thread_release,thread_unlinkThread,if_neg hut]
      split
      · rwa [Option.isSome_map]
      · exact hlive
    · unfold Ahead at hu
      rw [hlink] at hu ⊢
      apply Reach.unlink ha ht.symm
      apply h.main
      rcases hu with hu | hu
      · exact Or.inl hu
      · exact Or.inr (Reach.of_unlink ha hu)

theorem Walkable.nextThread (h : p.Walkable) (hn : p.nextThread = some (t,p')) : p'.Walkable := by
  unfold ProcessRecord.nextThread at hn
  simp only [Option.bind_eq_bind,Option.bind_eq_some_iff] at hn
  obtain ⟨j,hj,st,-,hn⟩ := hn
  obtain ⟨hahead,-⟩ := doWhile_mem (S := Reach p.link p.currentThread) (fun _ hi => hi.tail)
    (Reach.single _ _) hj
  split_ifs at hn
  · obtain ⟨-,rfl⟩ := Prod.mk.inj (Option.some.inj hn)
    exact h
  · obtain ⟨-,rfl⟩ := Prod.mk.inj (Option.some.inj hn)
    refine ⟨fun u hu => h.live u (Reach.trans hahead hu),fun u hu => ?_⟩
    apply h.main
    rcases hu with rfl | hu
    · exact Or.inr hahead
    · exact Or.inr (Reach.trans hahead hu)

theorem Walkable.step (h : p.Walkable) (hs : p.Single l) (hp : p.step l = some p') :
    p'.Walkable := by
  cases l with
  | addThread thread =>
    obtain rfl : (p.addThread thread).1 = p' := by simpa [ProcessRecord.step] using hp
    exact h.addThread thread
  | terminateThread t =>
    simp only [ProcessRecord.step,Option.ite_none_left_eq_some] at hp
    exact h.terminateThread hp.1 hs hp.2
  | changeThreadState t st =>
    simp only [ProcessRecord.step,changeThreadState] at hp
    split_ifs at hp
    · obtain ⟨th,-,rfl⟩ := Option.map_eq_some_iff.mp hp
      exact h.congr rfl link_setThreadState (fun u hu => by rwa [isSome_threadState_set])
    · obtain rfl : p = p' := by simpa using hp
      exact h
  | joinThread t toJoin =>
    simp only [ProcessRecord.step,joinThread] at hp
    split_ifs at hp
    cases hj : (p.threads toJoin).thread with
    | none =>
      obtain rfl : p = p' := by simpa [hj] using hp
      exact h
    | some joined =>
      simp only [hj] at hp
      obtain ⟨th,-,rfl⟩ := Option.map_eq_some_iff.mp hp
      refine h.congr rfl link_setThread (fun u hu => ?_)
      rw [isSome_threadState] at hu ⊢
      rw [thread_setThread]
      split
      · rfl
      · exact hu
  | nextThread =>
    simp only [ProcessRecord.step,Option.map_eq_some_iff,Prod.exists] at hp
    obtain ⟨t,q,hq,rfl⟩ := hp
    exact h.nextThread hq

/-- In a run over a new process that terminates no thread two visited slots point at, the
choice is right in every state exactly if the walk can return there, and otherwise no number
of rounds ends it. -/
theorem next_thread {s s' : Session} {memory : ProcessRecord} {a : ℕ} {ls : List ThreadStep}
    (h : s.createProcess memory a = some (q,s')) (hC : Runs.Along step Single q ls) :
    Runs.Always step (fun p => (p.FindsNext ↔ p.Returns) ∧ (¬ p.Returns → ∀ n,
      doWhile p.link (p.passesOver p.currentThread) n p.currentThread = none)) q ls := by
  exact Runs.Along.always (I := Walkable) (fun p l p' hw hs hp => hw.step hs hp)
    (fun p hw => ⟨hw.findsNext_iff,hw.forever⟩) (Walkable.created h) hC

def running : Session := ⟨⟨fun _ => ⟨0,some ⟨1,-1,0,fun _ => ⟨0,none⟩,0⟩⟩,1,0,1,2,0,0⟩,some 1,2⟩

def fresh : ProcessRecord := ⟨2,1,0,fun i =>
  if i = 0 then ⟨0,some ⟨.ready,notWaiting,0⟩⟩
  else if 0 ≤ i ∧ i < maxThreads then ⟨0,none⟩ else ⟨0,none⟩,0⟩

theorem createProcess_fresh : running.createProcess ⟨0,0,0,fun _ => ⟨0,none⟩,0⟩ 0 =
    some (fresh,{ running with nextPid := 3 }) := rfl

/-- A second thread is added and chosen, and it is blocked: the first one is chosen. -/
theorem next_thread_second : Runs.Always step (fun p => (p.FindsNext ↔ p.Returns) ∧
    (¬ p.Returns → ∀ n, doWhile p.link (p.passesOver p.currentThread) n p.currentThread = none))
    fresh [.addThread ⟨.ready,notWaiting,0⟩,.nextThread,.changeThreadState 1 .blocked,.nextThread] := by
  exact next_thread createProcess_fresh ⟨trivial,fun _ _ => ⟨trivial,fun _ _ => ⟨trivial,fun _ _ =>
    ⟨trivial,fun _ _ => trivial⟩⟩⟩⟩

/-- From a slot off the ring there is only the main thread, which is not READY. -/
theorem forever_main (hl : p.link p.currentThread = 0) (h0 : p.link 0 = 0)
    (hc : 0 ≠ p.currentThread) (hst : p.threadState 0 = some st) (hne : st ≠ .ready) (n : ℕ) :
    doWhile p.link (p.passesOver p.currentThread) n p.currentThread = none := by
  apply doWhile_forever
  intro u hu
  have hzero : u = 0 := by
    induction hu with
    | single hu => exact hu.symm.trans hl
    | tail _ hu ih => rw [← hu,ih,h0]
  rw [hzero,passesOver_live (by rw [hst]; rfl),hst]
  simp [hc,hne]

/-- The second thread ends while the first one is blocked. -/
theorem not_next_thread : ∃ q s' p, running.createProcess ⟨0,0,0,fun _ => ⟨0,none⟩,0⟩ 0 = some (q,s') ∧
    Runs.run step q [.addThread ⟨.ready,notWaiting,0⟩,.nextThread,.changeThreadState 0 .blocked,
      .terminateThread 1] = some p ∧ ¬ p.FindsNext ∧
        ∀ n, doWhile p.link (p.passesOver p.currentThread) n p.currentThread = none := by
  obtain ⟨p,hp,hl,h0,hc,hst⟩ : ∃ p, Runs.run step fresh [.addThread ⟨.ready,notWaiting,0⟩,.nextThread,
      .changeThreadState 0 .blocked,.terminateThread 1] = some p ∧ p.link p.currentThread = 0 ∧
        p.link 0 = 0 ∧ 0 ≠ p.currentThread ∧ p.threadState 0 = some .blocked :=
    ⟨_,rfl,rfl,rfl,by decide,rfl⟩
  have hforever := forever_main hl h0 hc hst (by decide)
  exact ⟨fresh,_,p,createProcess_fresh,hp,not_findsNext (hforever _),hforever⟩

end ProcessRecord

namespace Session
open Scheduler ProcessRecord
variable {s : Session} {p : ProcessRecord} {i t : ℤ}

/-- The call for the process in slot `i` of the table is the one of the record. -/
theorem terminateThread_record (hp : s.scheduler.process? i = some p)
    (hi : s.scheduler.getProcessIndex p.pid = some (some i)) (ht : t ≠ 0) :
    s.terminateThread i t = (p.terminateThread t).map (fun q =>
      (.returned,{ s with scheduler := s.scheduler.setProcess i (some q) })) := by
  unfold Session.terminateThread ProcessRecord.terminateThread
  rw [hp,Option.bind_some,if_neg ht,Option.map_bind]
  congr 1
  funext found
  cases found with
  | none =>
    simp [setProcess_self hp]
  | some previous =>
    have hset : (s.scheduler.setProcess i (some (p.unlinkThread previous t))).process? i =
        some (p.unlinkThread previous t) := by
      rw [process?_setProcess,if_pos rfl]
    have hindex := (getProcessIndex_setProcess p.pid (p.unlinkThread previous t) hp rfl).trans hi
    have hdone := unlockWaitingThreads_spec t hset hindex
      (fun u => mem_threadSlots.mp) nodup_threadSlots
    rw [setProcess_setProcess] at hdone
    cases hth : (p.threads t).thread with
    | none => rfl
    | some th =>
      simp only [Option.bind_some,Option.map_some,Function.comp]
      unfold unlockWaitingThreads
      rw [hdone,Option.map_some]

end Session
end ComplexOS
