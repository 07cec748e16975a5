import ComplexOS.Scheduler.SessionCalls

/-! # The ring of threads

Additions, terminations and joins of `process.c` and `threads.c`. What is freed with a thread
is left out.
-/
namespace ComplexOS
open SlotChains

namespace ProcessRecord
variable (p : ProcessRecord) (t : ℤ)

def setLink (next : ℤ) : ProcessRecord :=
  { p with threads := Function.update p.threads t { p.threads t with next := next } }

def setThread (th : Option Thread) : ProcessRecord :=
  { p with threads := Function.update p.threads t { p.threads t with thread := th } }

/-- `THREAD_LIMIT_REACHED` is `-1`. -/
def firstAvailableThreadSpace : ℤ :=
  ((SlotTable.firstFree (fun n : ThreadNode => n.thread.isSome) maxThreads.toNat
    (fun i => p.threads i)).map Int.ofNat).getD (-1)

def addThread (thread : Thread) : ProcessRecord × ℤ :=
  let index := p.firstAvailableThreadSpace
  if index ≠ -1 then
    (((p.setThread index (some thread)).setLink p.currentThread index).setLink index
      (p.link p.currentThread),index)
  else (p,-1)

/-- The search loop of `terminateThread`: the slot before the match, or `none` inside for its
early return. -/
def findThread (thread first : ℤ) : ℕ → ℤ → ℤ → Option (Option ℤ)
  | 0, _, _ => none
  | n+1, previous, toRemove =>
    if toRemove = thread then some (some previous)
    else if p.link toRemove = first then some none
    else findThread thread first n toRemove (p.link toRemove)

def unlinkThread (previous thread : ℤ) : ProcessRecord :=
  (p.setLink previous (p.link thread)).setThread thread none

end ProcessRecord

def threadSlots : List ℤ := (List.range maxThreads.toNat).map Int.ofNat

namespace Scheduler
variable (s : Scheduler) (i : ℤ)

/-- One round of the loop of `unlockWaitingThreads`, for the process in slot `i`. -/
def unlockWaitingThread (thread t : ℤ) : Option Scheduler :=
  (s.process? i).bind (fun p => match (p.threads t).thread with
    | none => some s
    | some th =>
      if th.state = .sleeping ∧ th.waitingThread = thread then
        changeThreadState (s.setProcess i
          (some (p.setThread t (some { th with waitingThread := notWaiting })))) p.pid t .ready
      else some s)

def unlockWaitingThreads (thread : ℤ) : Option Scheduler :=
  threadSlots.foldlM (fun s t => s.unlockWaitingThread i thread t) s

end Scheduler

namespace Session
variable (s : Session) (i : ℤ)

/-- The process is the one in slot `i`. For thread `0` the yield of `killCurrent` is left to
the caller. -/
def terminateThread (thread : ℤ) : Option (Ending × Session) :=
  (s.scheduler.process? i).bind (fun p =>
    if thread = 0 then s.killCurrent
    else (p.findThread thread (p.link p.currentThread) maxThreads.toNat p.currentThread
      (p.link p.currentThread)).bind (fun found => match found with
        | none => some (.returned,s)
        | some previous => (p.threads thread).thread.bind (fun _ =>
          ((s.scheduler.setProcess i (some (p.unlinkThread previous thread))).unlockWaitingThreads i
            thread).map (fun d => (.returned,{ s with scheduler := d })))))

end Session

namespace ProcessRecord

/-- The live threads form one cycle, which visits them in the order of the list. -/
structure Cycles (p : ProcessRecord) (slots : List ℤ) : Prop where
  ring : ∃ c rest, slots = c::rest ∧ Ring p.link c rest
  threads : ∀ t, t ∈ slots ↔ InThreads t ∧ (p.threadState t).isSome

def released (thread : ℤ) (th : Thread) : Thread :=
  if th.state = .sleeping ∧ th.waitingThread = thread then
    { th with state := .ready, waitingThread := notWaiting }
  else th

variable {p q : ProcessRecord} {rest pre post js ks slots : List ℤ} {t u thread first previous toRemove c a i : ℤ}
  {n : ℕ} {th : Thread}

instance : DecidablePred InThreads := fun _ => inferInstanceAs (Decidable (_ ∧ _))

theorem mem_threadSlots : t ∈ threadSlots ↔ InThreads t := by
  unfold threadSlots InThreads maxThreads
  rw [List.mem_map]
  constructor
  · rintro ⟨k,hk,rfl⟩
    have hlt := List.mem_range.mp hk
    exact ⟨Int.natCast_nonneg k,by simp at hlt ⊢; omega⟩
  · rintro ⟨hpos,hlt⟩
    obtain ⟨k,rfl⟩ := Int.eq_ofNat_of_zero_le hpos
    exact ⟨k,List.mem_range.mpr (by simp; omega),rfl⟩

theorem nodup_threadSlots : threadSlots.Nodup := List.nodup_range.map (fun _ _ => Int.ofNat.inj)

theorem link_setLink : (p.setLink t c).link = Function.update p.link t c := by
  funext u
  by_cases h : u = t
  · subst h
    simp [link,setLink]
  · simp [link,setLink,h]

@[simp] theorem link_setThread {th : Option Thread} : (p.setThread t th).link = p.link := by
  funext u
  by_cases h : u = t
  · subst h
    simp [link,setThread]
  · simp [link,setThread,h]

@[simp] theorem thread_setLink : ((p.setLink t c).threads u).thread = (p.threads u).thread := by
  by_cases h : u = t
  · subst h
    simp [setLink]
  · simp [setLink,h]

theorem thread_setThread {th : Option Thread} :
    ((p.setThread t th).threads u).thread = if u = t then th else (p.threads u).thread := by
  by_cases h : u = t
  · subst h
    simp [setThread]
  · simp [setThread,h]

theorem isSome_threadState : (p.threadState t).isSome = (p.threads t).thread.isSome := by
  rw [threadState,Option.isSome_map]

/-! ### Additions -/

theorem firstAvailableThreadSpace_cases :
    (p.firstAvailableThreadSpace = -1 ∧ ∀ t, InThreads t → (p.threads t).thread.isSome) ∨
      (InThreads p.firstAvailableThreadSpace ∧
        (p.threads p.firstAvailableThreadSpace).thread = none) := by
  unfold firstAvailableThreadSpace
  cases hf : SlotTable.firstFree (fun n : ThreadNode => n.thread.isSome) maxThreads.toNat
      (fun i => p.threads i) with
  | none =>
    refine Or.inl ⟨rfl,fun t ht => ?_⟩
    obtain ⟨k,rfl⟩ := Int.eq_ofNat_of_zero_le ht.1
    exact SlotTable.firstFree_none hf (by have hlt := ht.2; unfold maxThreads at hlt ⊢; omega)
  | some k =>
    obtain ⟨hk,hfree⟩ := SlotTable.firstFree_some hf
    refine Or.inr ⟨⟨Int.natCast_nonneg k,?_⟩,Option.not_isSome_iff_eq_none.mp hfree⟩
    change (k : ℤ) < maxThreads
    unfold maxThreads at hk ⊢
    omega

theorem addThread_full (h : p.firstAvailableThreadSpace = -1) : p.addThread th = (p,-1) := by
  unfold addThread
  rw [if_neg (not_not.mpr h)]

theorem addThread_free (h : InThreads p.firstAvailableThreadSpace) :
    p.addThread th = (((p.setThread p.firstAvailableThreadSpace (some th)).setLink p.currentThread
      p.firstAvailableThreadSpace).setLink p.firstAvailableThreadSpace (p.link p.currentThread),
        p.firstAvailableThreadSpace) := by
  have hne : p.firstAvailableThreadSpace ≠ -1 := by
    intro he
    have hpos := h.1
    omega
  unfold addThread
  rw [if_pos hne]

/-- The new slot goes in behind the current thread. -/
theorem Threaded.addThread (h : p.Threaded rest) (th : Thread) (ht : InThreads p.firstAvailableThreadSpace)
    (hf : (p.threads p.firstAvailableThreadSpace).thread = none) :
    (p.addThread th).1.Threaded (p.firstAvailableThreadSpace::rest) := by
  rw [addThread_free ht]
  generalize p.firstAvailableThreadSpace = f at ht hf ⊢
  have hnew : f ∉ p.currentThread::rest := by
    rw [h.threads,isSome_threadState,hf]
    simp
  refine ⟨?_,fun t => ?_⟩
  · have hinsert := h.ring.insert hnew
    rw [link_setLink,link_setLink,link_setThread]
    exact hinsert
  · rw [isSome_threadState,thread_setLink,thread_setLink,thread_setThread]
    have hold := h.threads t
    rw [isSome_threadState] at hold
    change t ∈ p.currentThread::f::rest ↔ _
    by_cases hf' : t = f
    · subst hf'
      simp [ht]
    · rw [if_neg hf',← hold]
      simp [hf']

/-! ### The search -/

/-- A walk over the slots of `js`. A match comes with the slot before it. -/
theorem findThread_spec (thread previous : ℤ) (hp : Path p.link toRemove js first)
    (hne : js ≠ []) (hf : first ∉ js.tail) (hn : js.length ≤ n) :
    (thread ∉ js ∧ p.findThread thread first n previous toRemove = some none) ∨
      ∃ pre post ks a, js = pre++thread::post ∧ previous::pre = ks++[a] ∧
        p.findThread thread first n previous toRemove = some (some a) := by
  induction js generalizing n previous toRemove with
  | nil => exact absurd rfl hne
  | cons j js ih =>
    obtain ⟨rfl,hp⟩ := hp
    obtain ⟨m,rfl⟩ := Nat.exists_eq_succ_of_ne_zero (Nat.ne_zero_of_lt hn)
    unfold findThread
    by_cases hmatch : toRemove = thread
    · rw [if_pos hmatch]
      exact Or.inr ⟨[],js,[],previous,by rw [hmatch]; rfl,rfl,rfl⟩
    rw [if_neg hmatch]
    cases js with
    | nil =>
      have hlast : p.link toRemove = first := hp
      rw [if_pos hlast]
      refine Or.inl ⟨?_,rfl⟩
      rw [List.mem_singleton]
      exact fun he => hmatch he.symm
    | cons k ks =>
      have hk : p.link toRemove = k := hp.1
      have hgo : p.link toRemove ≠ first := fun he => hf (by rw [← he,hk]; exact List.mem_cons_self)
      rw [if_neg hgo]
      have htail : first ∉ (k::ks).tail := fun hm => hf (List.mem_cons_of_mem _ hm)
      obtain ⟨hn,he⟩ | ⟨pre,post,xs,a,hjs,hlast,he⟩ :=
        ih toRemove hp (List.cons_ne_nil _ _) htail (Nat.le_of_succ_le_succ hn)
      · refine Or.inl ⟨fun hm => ?_,he⟩
        rcases List.mem_cons.mp hm with rfl | hm
        · exact hmatch rfl
        · exact hn hm
      · refine Or.inr ⟨toRemove::pre,post,previous::xs,a,?_,?_,he⟩
        · rw [hjs,List.cons_append]
        · rw [hlast,List.cons_append]

theorem link_unlinkThread :
    (p.unlinkThread previous t).link = Function.update p.link previous (p.link t) := by
  rw [unlinkThread,link_setThread,link_setLink]

theorem thread_unlinkThread :
    ((p.unlinkThread previous t).threads u).thread = if u = t then none else (p.threads u).thread := by
  rw [unlinkThread,thread_setThread,thread_setLink]

/-- The cycle closes over the gap, in the order it has had. -/
theorem ring_unlink (h : Ring p.link c rest) (hjs : rest++[c] = pre++thread::post)
    (hlast : c::pre = ks++[a]) (hne : (c::rest).erase thread ≠ []) :
    ∃ d others, (c::rest).erase thread = d::others ∧
      Ring (Function.update p.link a (p.link thread)) d others := by
  rcases post.eq_nil_or_concat with rfl | ⟨ys,b,rfl⟩
  · obtain ⟨rfl,hc⟩ := List.append_inj' hjs rfl
    obtain rfl : c = thread := List.singleton_inj.mp hc
    rw [List.erase_cons_head] at hne ⊢
    cases rest with
    | nil => exact absurd rfl hne
    | cons x xs =>
      cases ks with
      | nil => cases hlast
      | cons k ks =>
        obtain ⟨-,hlast⟩ := List.cons.inj hlast
        exact ⟨x,xs,rfl,h.leave hlast⟩
  · have hsplit : rest++[c] = (pre++thread::ys)++[b] := by
      rw [hjs]
      simp
    obtain ⟨rfl,hc⟩ := List.append_inj' hsplit rfl
    have hnd := h.nodup
    have hnot : thread ∉ c::pre := by
      intro hm
      have hdisj : (c::pre).Disjoint (thread::ys) := by
        apply List.disjoint_of_nodup_append
        simpa using hnd
      exact hdisj hm List.mem_cons_self
    refine ⟨c,pre++ys,?_,h.erase hlast⟩
    have happend : c::(pre++thread::ys) = (c::pre)++thread::ys := rfl
    rw [happend,List.erase_append_right _ hnot,List.erase_cons_head]
    rfl

/-- The whole search from the current thread on: a live slot is taken out of the cycle, and
any other number is found nowhere. -/
theorem Threaded.findThread (h : p.Threaded rest) (thread : ℤ) :
    (thread ∉ p.currentThread::rest ∧ p.findThread thread (p.link p.currentThread) maxThreads.toNat
        p.currentThread (p.link p.currentThread) = some none) ∨
      (thread ∈ p.currentThread::rest ∧ ∃ previous, p.findThread thread (p.link p.currentThread)
        maxThreads.toNat p.currentThread (p.link p.currentThread) = some (some previous) ∧
          ((p.currentThread::rest).erase thread ≠ [] →
            (p.unlinkThread previous thread).Cycles ((p.currentThread::rest).erase thread))) := by
  have hfirst : p.link p.currentThread ∉ (rest++[p.currentThread]).tail := by
    have hnd := h.ring.order_nodup
    cases rest with
    | nil => exact List.not_mem_nil
    | cons x xs =>
      rw [h.ring.path.1]
      exact (List.nodup_cons.mp hnd).1
  have hlength : (rest++[p.currentThread]).length ≤ maxThreads.toNat := by
    rw [List.length_append]
    exact h.fuel
  obtain ⟨hn,he⟩ | ⟨pre,post,ks,a,hjs,hlast,he⟩ := findThread_spec thread
    p.currentThread h.ring.order (by simp) hfirst hlength
  · refine Or.inl ⟨fun hm => hn ?_,he⟩
    simpa [or_comm] using hm
  · have hmem : thread ∈ p.currentThread::rest :=
      mem_of_order hjs (List.mem_append_right _ List.mem_cons_self)
    refine Or.inr ⟨hmem,a,he,fun hne => ⟨?_,fun t => ?_⟩⟩
    · rw [link_unlinkThread]
      exact ring_unlink h.ring hjs hlast hne
    · rw [isSome_threadState,thread_unlinkThread,h.ring.nodup.mem_erase_iff,h.threads,
        isSome_threadState]
      by_cases ht : t = thread
      · simp [ht]
      · simp [ht]

def release (p : ProcessRecord) (thread : ℤ) (js : List ℤ) : ProcessRecord :=
  { p with threads := fun t => if t ∈ js then
      { p.threads t with thread := (p.threads t).thread.map (released thread) }
    else p.threads t }

@[simp] theorem link_release : (p.release thread js).link = p.link := by
  funext t
  unfold link release
  dsimp only
  split
  · rfl
  · rfl

theorem thread_release : ((p.release thread js).threads t).thread =
    if t ∈ js then (p.threads t).thread.map (released thread) else (p.threads t).thread := by
  unfold release
  dsimp only
  split
  · rfl
  · rfl

theorem released_self (hth : ¬ (th.state = .sleeping ∧ th.waitingThread = thread)) :
    released thread th = th := if_neg hth

theorem withThreads {f : ℤ → ThreadNode} (h : f = p.threads) : { p with threads := f } = p := by
  rw [h]

/-- A slot that has been looked at already is done with. -/
theorem release_cons (ht : t ∉ js) :
    (p.release thread [t]).release thread js = p.release thread (t::js) := by
  have hthreads : ((p.release thread [t]).release thread js).threads =
      (p.release thread (t::js)).threads := by
    funext u
    unfold release
    by_cases hu : u = t
    · subst hu
      simp [ht]
    · simp [hu]
  exact congrArg (fun f => { p with threads := f }) hthreads

theorem Cycles.release (h : p.Cycles slots) : (p.release thread js).Cycles slots := by
  refine ⟨?_,fun t => ?_⟩
  · rw [link_release]
    exact h.ring
  · rw [h.threads,isSome_threadState,isSome_threadState,thread_release]
    split
    · rw [Option.isSome_map]
    · rfl

end ProcessRecord

namespace Scheduler
open ProcessRecord
variable {s s' : Scheduler} {p q : ProcessRecord} {i t thread pid : ℤ} {js : List ℤ} {n : ℕ}

/-- A lookup sees the pids only. -/
theorem getProcessIndex_setProcess (pid : ℤ) (q : ProcessRecord) (hp : s.process? i = some p) (hq : q.pid = p.pid) :
    (s.setProcess i (some q)).getProcessIndex pid = s.getProcessIndex pid := by
  have hfind : ∀ n j, (s.setProcess i (some q)).findIndex pid n j = s.findIndex pid n j := by
    intro n
    induction n with
    | zero => exact fun _ => rfl
    | succ n ih =>
      intro j
      unfold findIndex
      rw [process?_setProcess,link_setProcess]
      split
      · rename_i hj
        rw [hj,hp,Option.bind_some,Option.bind_some,hq,ih]
      · simp only [ih]
  exact congrArg (Option.map (fun index : Option ℤ => index.filter (· ≠ -1))) (hfind _ _)

theorem unlockWaitingThread_spec (thread : ℤ) (hp : s.process? i = some p)
    (hi : s.getProcessIndex p.pid = some (some i)) (ht : InThreads t) :
    s.unlockWaitingThread i thread t = some (s.setProcess i (some (p.release thread [t]))) := by
  have hkeep : (p.threads t).thread.map (released thread) = (p.threads t).thread →
      p.release thread [t] = p := by
    intro hth
    have hthreads : (p.release thread [t]).threads = p.threads := by
      funext u
      unfold release
      by_cases hu : u = t
      · subst hu
        simp [hth]
      · simp [hu]
    exact withThreads hthreads
  unfold unlockWaitingThread
  rw [hp,Option.bind_some]
  cases hth : (p.threads t).thread with
  | none =>
    dsimp only
    rw [hkeep (by rw [hth]; rfl),setProcess_self hp]
  | some th =>
    dsimp only
    split
    · rename_i hjoined
      have hrange : 0 ≤ t ∧ t < maxThreads := ht
      have hlookup : ∀ x, (s.setProcess i (some (p.setThread t x))).getProcessIndex p.pid =
          some (some i) := fun x => (getProcessIndex_setProcess _ (p.setThread t x) hp rfl).trans hi
      unfold changeThreadState
      rw [hlookup,Option.bind_some]
      dsimp only
      rw [process?_setProcess,if_pos rfl,Option.bind_some,if_pos hrange,thread_setThread,if_pos rfl,
        Option.map_some,setProcess_setProcess]
      refine congrArg (fun q => some (s.setProcess i (some q))) ?_
      refine congrArg (fun f => { p with threads := f }) (funext fun u => ?_)
      by_cases hu : u = t
      · subst hu
        simp [setThread,hth,released,hjoined]
      · simp [setThread,hu]
    · rename_i hjoined
      rw [hkeep (by rw [hth,Option.map_some,released_self hjoined]),setProcess_self hp]

theorem unlockWaitingThreads_spec (thread : ℤ) (hp : s.process? i = some p)
    (hi : s.getProcessIndex p.pid = some (some i)) (hjs : ∀ t ∈ js, InThreads t) (hnd : js.Nodup) :
    js.foldlM (fun s t => s.unlockWaitingThread i thread t) s =
      some (s.setProcess i (some (p.release thread js))) := by
  induction js generalizing s p with
  | nil =>
    have hnone : p.release thread [] = p := rfl
    rw [hnone,setProcess_self hp]
    rfl
  | cons t js ih =>
    obtain ⟨ht,hnd⟩ := List.nodup_cons.mp hnd
    have hround := unlockWaitingThread_spec thread hp hi (hjs t List.mem_cons_self)
    have hset : (s.setProcess i (some (p.release thread [t]))).process? i =
        some (p.release thread [t]) := by
      rw [process?_setProcess,if_pos rfl]
    have hindex : (s.setProcess i (some (p.release thread [t]))).getProcessIndex
        (p.release thread [t]).pid = some (some i) := by
      exact (getProcessIndex_setProcess _ (p.release thread [t]) hp rfl).trans hi
    rw [List.foldlM_cons,hround]
    have hrest := ih hset hindex (fun u hu => hjs u (List.mem_cons_of_mem _ hu)) hnd
    rw [release_cons ht,setProcess_setProcess] at hrest
    exact hrest

end Scheduler

namespace ProcessRecord
variable {p : ProcessRecord} {rest : List ℤ} {thread : Thread} {t u : ℤ}

structure AddedThread (p : ProcessRecord) (rest : List ℤ) (thread : Thread) (p' : ProcessRecord)
    (index : ℤ) : Prop where
  slot : InThreads index
  free : (p.threads index).thread = none
  current : p'.currentThread = p.currentThread
  ring : p'.Threaded (index::rest)
  threads : ∀ u, (p'.threads u).thread = if u = index then some thread else (p.threads u).thread

/-- The thread in slot `t` has gone, the others are in the order they have been in, and
those that have joined it go on. -/
structure EndedThread (p : ProcessRecord) (rest : List ℤ) (t : ℤ) (p' : ProcessRecord) : Prop where
  current : p'.currentThread = p.currentThread
  ring : p'.Cycles ((p.currentThread::rest).erase t)
  threads : ∀ u, InThreads u → (p'.threads u).thread =
    if u = t then none else (p.threads u).thread.map (released t)

theorem Threaded.addedThread (h : p.Threaded rest) (hf : (p.addThread thread).2 ≠ -1) :
    AddedThread p rest thread (p.addThread thread).1 (p.addThread thread).2 := by
  obtain ⟨hfull,-⟩ | ⟨hslot,hfree⟩ := p.firstAvailableThreadSpace_cases
  · rw [addThread_full hfull] at hf
    exact absurd rfl hf
  · have hring := h.addThread thread hslot hfree
    rw [addThread_free hslot] at hring ⊢
    refine ⟨hslot,hfree,rfl,hring,fun u => ?_⟩
    dsimp only
    rw [thread_setLink,thread_setLink,thread_setThread]

theorem addThread_eq_neg_one : (p.addThread thread).2 = -1 ↔
    ∀ t, InThreads t → (p.threads t).thread.isSome := by
  obtain ⟨hfull,hall⟩ | ⟨hslot,hfree⟩ := p.firstAvailableThreadSpace_cases
  · rw [addThread_full hfull]
    exact ⟨fun _ => hall,fun _ => rfl⟩
  · rw [addThread_free hslot]
    constructor
    · intro he
      have hpos := hslot.1
      dsimp only at he
      rw [he] at hpos
      exact absurd hpos (by decide)
    · intro hall
      have hsome := hall _ hslot
      rw [hfree] at hsome
      cases hsome

/-- Where the dead thread is not the current one, the ring is in order again. -/
theorem EndedThread.threaded {p' : ProcessRecord} (h : EndedThread p rest t p')
    (hne : t ≠ p.currentThread) : p'.Threaded (rest.erase t) := by
  have hring := h.ring
  rw [List.erase_cons_tail (by simpa using hne.symm)] at hring
  obtain ⟨⟨c,others,he,hr⟩,hthreads⟩ := hring
  obtain ⟨rfl,rfl⟩ := List.cons.inj he
  refine ⟨?_,?_⟩
  · rw [h.current]
    exact hr
  · rw [h.current]
    exact hthreads

end ProcessRecord

namespace Session
open Scheduler ProcessRecord
variable {s : Session} {p : ProcessRecord} {rest : List ℤ} {i t : ℤ}

theorem terminateThread_spec (hp : s.scheduler.process? i = some p)
    (hi : s.scheduler.getProcessIndex p.pid = some (some i)) (h : p.Threaded rest)
    (h0 : (p.threadState 0).isSome) (ht : t ≠ 0) :
    (t ∉ p.currentThread::rest ∧ s.terminateThread i t = some (.returned,s)) ∨
      (t ∈ p.currentThread::rest ∧ ∃ p', EndedThread p rest t p' ∧ s.terminateThread i t =
        some (.returned,{ s with scheduler := s.scheduler.setProcess i (some p') })) := by
  unfold terminateThread
  rw [hp,Option.bind_some,if_neg ht]
  obtain ⟨hm,he⟩ | ⟨hm,previous,he,hcycles⟩ := h.findThread t
  · rw [he]
    exact Or.inl ⟨hm,rfl⟩
  · obtain ⟨hin,hlive⟩ := (h.threads t).mp hm
    rw [isSome_threadState] at hlive
    obtain ⟨th,hth⟩ := Option.isSome_iff_exists.mp hlive
    have hzero : 0 ∈ (p.currentThread::rest).erase t := by
      rw [h.ring.nodup.mem_erase_iff,h.threads]
      exact ⟨ht.symm,⟨by decide,by decide⟩,h0⟩
    have hring := hcycles (List.ne_nil_of_mem hzero)
    have hset : (s.scheduler.setProcess i (some (p.unlinkThread previous t))).process? i =
        some (p.unlinkThread previous t) := by
      rw [process?_setProcess,if_pos rfl]
    have hindex := (getProcessIndex_setProcess p.pid (p.unlinkThread previous t) hp rfl).trans hi
    have hdone := unlockWaitingThreads_spec t hset hindex
      (fun u => mem_threadSlots.mp) nodup_threadSlots
    rw [setProcess_setProcess] at hdone
    refine Or.inr ⟨hm,(p.unlinkThread previous t).release t threadSlots,
      ⟨rfl,hring.release,fun u hu => ?_⟩,?_⟩
    · rw [thread_release,if_pos (mem_threadSlots.mpr hu),thread_unlinkThread]
      split
      · rfl
      · rfl
    · rw [he,Option.bind_some]
      dsimp only
      rw [hth,Option.bind_some]
      unfold unlockWaitingThreads
      rw [hdone,Option.map_some]

/-- The threads of a process stay on one cycle. An addition finds a free slot for the new
thread as long as there is one, and a termination takes out the thread it is about. -/
theorem thread_ring (h : p.Threaded rest) (h0 : (p.threadState 0).isSome) :
    (∀ thread : Thread, ((p.addThread thread).2 = -1 ↔ ∀ t, InThreads t → (p.threads t).thread.isSome) ∧
      ((p.addThread thread).2 = -1 → (p.addThread thread).1 = p) ∧
        ((p.addThread thread).2 ≠ -1 →
          AddedThread p rest thread (p.addThread thread).1 (p.addThread thread).2)) ∧
    ∀ (s : Session) (i t : ℤ), s.scheduler.process? i = some p →
      s.scheduler.getProcessIndex p.pid = some (some i) → t ≠ 0 →
        (t ∉ p.currentThread::rest ∧ s.terminateThread i t = some (.returned,s)) ∨
          (t ∈ p.currentThread::rest ∧ ∃ p', EndedThread p rest t p' ∧ s.terminateThread i t =
            some (.returned,{ s with scheduler := s.scheduler.setProcess i (some p') })) := by
  constructor
  · refine fun thread => ⟨addThread_eq_neg_one,fun hf => ?_,h.addedThread⟩
    obtain ⟨hfull,-⟩ | ⟨hslot,-⟩ := p.firstAvailableThreadSpace_cases
    · rw [addThread_full hfull]
    · have hpos := hslot.1
      rw [addThread_free hslot] at hf
      dsimp only at hf
      rw [hf] at hpos
      exact absurd hpos (by decide)
  · exact fun s i t hp hi ht => terminateThread_spec hp hi h h0 ht

def joined : ProcessRecord := ⟨1,-1,1,fun t =>
  if t = 0 then ⟨1,some ⟨.sleeping,1,0⟩⟩ else if t = 1 then ⟨0,some ⟨.running,notWaiting,0⟩⟩
  else ⟨0,none⟩,0⟩

theorem joined_threaded : joined.Threaded [0] := by
  refine ⟨⟨by decide,⟨rfl,rfl⟩⟩,fun t => ?_⟩
  by_cases h0 : t = 0
  · subst h0
    decide
  · by_cases h1 : t = 1
    · subst h1
      decide
    · simp [joined,ProcessRecord.threadState,h0,h1]

theorem thread_ring_joined :
    (joined.addThread ⟨.ready,notWaiting,0⟩).2 ≠ -1 ∧
      ∃ p', EndedThread joined [0] 1 p' ∧
        Session.terminateThread ⟨⟨fun i => if i = 0 then ⟨0,some joined⟩ else ⟨0,none⟩,1,0,1,2,0,0⟩,
          some 1,2⟩ 0 1 = some (.returned,⟨Scheduler.setProcess
            ⟨fun i => if i = 0 then ⟨0,some joined⟩ else ⟨0,none⟩,1,0,1,2,0,0⟩ 0 (some p'),some 1,2⟩) := by
  obtain ⟨hadd,hend⟩ := thread_ring joined_threaded rfl
  constructor
  · rw [Ne,(hadd _).1]
    exact fun hall => absurd (hall 2 ⟨by decide,by decide⟩) (by decide)
  · obtain ⟨hm,-⟩ | ⟨-,p',hp',he⟩ := hend
      ⟨⟨fun i => if i = 0 then ⟨0,some joined⟩ else ⟨0,none⟩,1,0,1,2,0,0⟩,some 1,2⟩ 0 1 rfl rfl
      (by decide)
    · exact absurd hm (by decide)
    · exact ⟨p',hp',he⟩

end Session
end ComplexOS
