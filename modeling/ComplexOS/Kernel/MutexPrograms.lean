import ComplexOS.Kernel.FreshMutex

/-! # The calls of the mutexes, interleaved

Each call is a program of pieces. Any number of programs are under way, and any of them may
take its next piece at any time, so that a thread that waits in `mutexDown` goes on at once,
when it is handed the mutex, or never. The count of every list stays the number of its
entries, and an entry belongs to a thread whose state can be changed.
-/
namespace ComplexOS
open SlotTable

namespace Processes
variable {ps : ℤ → Option Process} {t u : ThreadId} {st : ProcessState}

/-- No NULL pointer is in the way to the thread's state. -/
def Answers (ps : ℤ → Option Process) (t : ThreadId) : Prop :=
  ∀ p, ps t.pid = some p → 0 ≤ t.thread → t.thread < maxThreads → (p.threads t.thread).isSome

theorem changeThreadState_isSome : (changeThreadState ps t st).isSome ↔ Answers ps t := by
  unfold changeThreadState Answers
  cases ps t.pid with
  | none => simp
  | some p =>
    simp only [Option.some.injEq,forall_eq']
    split
    · rename_i hr
      cases p.threads t.thread <;> simp [hr]
    · rename_i hr
      simp only [Option.isSome_some,true_iff]
      exact fun h0 h1 => absurd ⟨h0,h1⟩ hr

theorem answers_set : Answers (setThreadState ps t st) u ↔ Answers ps u := by
  have hslot : ∀ p : Process, (Function.update p.threads t.thread
      ((p.threads t.thread).map (fun th => { th with state := st })) u.thread).isSome =
        (p.threads u.thread).isSome := by
    intro p
    by_cases h : u.thread = t.thread
    · rw [h,Function.update_self,Option.isSome_map]
    · rw [Function.update_of_ne h]
  unfold Answers setThreadState
  by_cases h : u.pid = t.pid
  · rw [h,Function.update_self]
    cases ps t.pid with
    | none => simp
    | some p => simp [hslot]
  · rw [Function.update_of_ne h]

end Processes

namespace BlockedList
variable (l : BlockedList)

def waiters : List ThreadId := entries ThreadId.used maxBlocked l.blocked

variable {l} {l' : BlockedList} {t w u : ThreadId} {j : ℕ}

theorem counted_iff : l.Counted ↔ l.blockedQuantity = l.waiters.length := by
  rw [Counted,waiters,length_entries]

theorem waiters_add (ha : l.add t = some l') (hu : u ∈ l'.waiters) : u = t ∨ u ∈ l.waiters := by
  obtain ⟨i,-,rfl⟩ := Option.map_eq_some_iff.mp ha
  obtain ⟨hused,j,hj,rfl⟩ := mem_entries.mp hu
  by_cases h : j = i
  · exact Or.inl (by simp [h])
  · simp only [Function.update_of_ne h] at hused ⊢
    exact Or.inr (mem_entries.mpr ⟨hused,j,hj,rfl⟩)

theorem waiters_pop (hp : l.pop = some (w,l')) : l.waiters = w::l'.waiters := by
  rw [BlockedList.pop] at hp
  split at hp
  · cases hp
  · obtain ⟨i,hi,he⟩ := Option.map_eq_some_iff.mp hp
    cases he
    exact entries_firstUsed hi not_used_unused

theorem waiters_remove (hu : u ∈ (l.remove j).waiters) : u ∈ l.waiters := by
  obtain ⟨hused,i,hi,rfl⟩ := mem_entries.mp hu
  by_cases h : i = j
  · subst h
    simp only [remove,Function.update_self] at hused
    exact absurd hused not_used_unused
  · simp only [remove,Function.update_of_ne h] at hused ⊢
    exact mem_entries.mpr ⟨hused,i,hi,rfl⟩

/-- A list that is counted and has waiters gives one of them up. -/
theorem Counted.pop_some (h : l.Counted) (hq : l.blockedQuantity > 0) :
    ∃ w l', l.pop = some (w,l') := by
  cases hp : l.pop with
  | none =>
    have h0 := h.pop_none.mp hp
    omega
  | some x => exact ⟨x.1,x.2,rfl⟩

end BlockedList

structure Caller where
  pid : ℤ
  thread : ℤ
  nonneg : 0 ≤ pid

def Caller.id (t : Caller) : ThreadId := ⟨t.pid,t.thread⟩

theorem Caller.pid_ne (t : Caller) : t.pid ≠ notUsed := by
  have h := t.nonneg
  unfold notUsed
  omega

theorem Caller.used (t : Caller) : t.id.used := t.pid_ne

inductive MutexPiece
  | createMutex (name : List UInt8) (t : Caller)
  | mutexDown (mutex : ℤ) (t : Caller)
  | mutexUp (mutex : ℤ) (t : ThreadId)
  | releaseMutexBody (mutex : ℤ) (t : Caller)
  | removeBlocked (v : Victim) (i : Fin maxMutexes.toNat) (j : Fin maxBlocked)

inductive MutexProgram
  | done
  | piece (p : MutexPiece) (next : MutexProgram)
  | branch (f : Kernel → MutexProgram)

namespace MutexPiece

/-- On a list with `MAX_BLOCKED` waiters `mutexDown` is not called. -/
def perform (k : Kernel) : MutexPiece → Option Kernel
  | .createMutex name t => some (k.createMutex t.pid name t.thread).2
  | .mutexDown mutex t =>
    match k.mutexDown mutex t.id with
    | some (.returned,k) => some k
    | some (.queued,k) => some k
    | _ => none
  | .mutexUp mutex t => k.mutexUp mutex t
  | .releaseMutexBody mutex t => (k.releaseMutexBody mutex t.id).map Prod.snd
  | .removeBlocked v i j => k.removeBlockedFromMutex v (i : ℕ) j

end MutexPiece

namespace MutexProgram

def createMutex (name : List UInt8) (t : Caller) : MutexProgram := piece (.createMutex name t) done

def mutexDown (mutex : ℤ) (t : Caller) : MutexProgram := piece (.mutexDown mutex t) done

def mutexUp (mutex : ℤ) (t : Caller) : MutexProgram := piece (.mutexUp mutex t.id) done

/-- A name that is found is answered without `mutexUp`. -/
def getMutex (name : List UInt8) (t : Caller) : MutexProgram :=
  piece (.mutexDown adminMutex t) (branch (fun k => match k.findMutex name with
    | some _ => done
    | none => piece (.createMutex name t) (piece (.mutexUp adminMutex t.id) done)))

def releaseMutexThen (mutex : ℤ) (t : Caller) (next : MutexProgram) : MutexProgram :=
  piece (.mutexDown adminMutex t) (piece (.releaseMutexBody mutex t)
    (piece (.mutexUp adminMutex t.id) next))

def releaseMutex (mutex : ℤ) (t : Caller) : MutexProgram := releaseMutexThen mutex t done

/-- One round of the loops of `removePidFromMutexes` and `removeThreadFromMutexes`. -/
def sweepMutex (v : Victim) (t : Caller) (i : Fin maxMutexes.toNat) (next : MutexProgram) :
    MutexProgram :=
  let blocked := (List.finRange maxBlocked).foldr (fun j next => piece (.removeBlocked v i j) next) next
  let held := branch (fun k => if v.Covers (k.mutexes (i : ℕ)).lockProcess then
    piece (.mutexUp (i : ℕ) ⟨v.pid,(k.mutexes (i : ℕ)).lockProcess.pid⟩) blocked else blocked)
  branch (fun k => if v.Covers (k.mutexes (i : ℕ)).creator then
    releaseMutexThen (i : ℕ) t held else held)

def removeFromMutexes (v : Victim) (t : Caller) : MutexProgram :=
  piece (.mutexDown adminMutex t) ((List.finRange maxMutexes.toNat).foldr (sweepMutex v t)
    (piece (.mutexUp adminMutex t.id) done))

def removePidFromMutexes (t : Caller) : MutexProgram :=
  removeFromMutexes ⟨t.pid,none,t.pid_ne⟩ t

def removeThreadFromMutexes (t : Caller) : MutexProgram :=
  removeFromMutexes ⟨t.pid,some t.thread,t.pid_ne⟩ t

end MutexProgram

inductive MutexCall
  | createMutex (name : List UInt8) (t : Caller)
  | getMutex (name : List UInt8) (t : Caller)
  | mutexDown (mutex : ℤ) (t : Caller)
  | mutexUp (mutex : ℤ) (t : Caller)
  | releaseMutex (mutex : ℤ) (t : Caller)
  | removePidFromMutexes (t : Caller)
  | removeThreadFromMutexes (t : Caller)

def MutexCall.program : MutexCall → MutexProgram
  | .createMutex name t => .createMutex name t
  | .getMutex name t => .getMutex name t
  | .mutexDown mutex t => .mutexDown mutex t
  | .mutexUp mutex t => .mutexUp mutex t
  | .releaseMutex mutex t => .releaseMutex mutex t
  | .removePidFromMutexes t => .removePidFromMutexes t
  | .removeThreadFromMutexes t => .removeThreadFromMutexes t

structure MutexCalls where
  kernel : Kernel
  pending : List MutexProgram

inductive MutexCalls.Label
  | call (c : MutexCall)
  /-- The next piece of one of the calls. -/
  | advance (i : ℕ)

namespace MutexCalls

def start (k : Kernel) : MutexCalls := ⟨(MutexTable.start k).kernel,[]⟩

def step (s : MutexCalls) : Label → Option MutexCalls
  | .call c => some { s with pending := s.pending++[c.program] }
  | .advance i => s.pending[i]?.bind (fun
    | .done => none
    | .piece p next => (p.perform s.kernel).map (fun k => ⟨k,s.pending.set i next⟩)
    | .branch f => some { s with pending := s.pending.set i (f s.kernel) })

end MutexCalls

namespace Kernel
variable (k : Kernel) (mutex : ℤ)

/-- The loop of `releaseMutex` with the threads that its rounds have woken. -/
def unlockTrace : ℕ → Kernel → Option (List ThreadId × Kernel)
  | n, k =>
    if (k.mutexes mutex).list.blockedQuantity > 0 then
      match n with
      | 0 => none
      | n+1 => (k.unlockProcess mutex).bind (fun x => (unlockTrace n x.2).map (fun y =>
          (if x.1 then (x.2.mutexes mutex).lockProcess::y.1 else y.1,y.2)))
    else some ([],k)

variable {k mutex} {k' : Kernel} {t u w : ThreadId} {n : ℕ}

theorem unlockTrace_unlockAll : (unlockTrace mutex n k).map Prod.snd = unlockAll mutex n k := by
  induction n generalizing k with
  | zero =>
    unfold unlockTrace unlockAll
    split <;> rfl
  | succ n ih =>
    unfold unlockTrace unlockAll
    split
    · rw [Option.map_bind]
      congr 1
      funext x
      rw [← ih,Function.comp,Option.map_map]
      rfl
    · rfl

/-! ### What each piece keeps -/

theorem changeThreadState_answers {st : ProcessState} (h : k.changeThreadState t st = some k') :
    Processes.Answers k.processes t ∧
      ∀ u, Processes.Answers k'.processes u ↔ Processes.Answers k.processes u := by
  obtain ⟨ps,hps,rfl⟩ := Option.map_eq_some_iff.mp h
  refine ⟨Processes.changeThreadState_isSome.mp (Option.isSome_iff_exists.mpr ⟨ps,hps⟩),fun u => ?_⟩
  rcases Processes.changeThreadState_cases hps with rfl | rfl
  · exact Processes.answers_set
  · exact Iff.rfl

theorem mutexDown_answers {o : DownOutcome} (h : k.mutexDown mutex t = some (o,k')) :
    (o = .queued → Processes.Answers k.processes t) ∧
      ∀ u, Processes.Answers k'.processes u ↔ Processes.Answers k.processes u := by
  rw [mutexDown] at h
  split at h
  · simp only at h
    split at h
    · split at h
      · rename_i k₁ hadd
        obtain ⟨k₂,hk,he⟩ := Option.map_eq_some_iff.mp h
        cases he
        obtain ⟨l,-,rfl⟩ := Option.map_eq_some_iff.mp hadd
        obtain ⟨ht,hu⟩ := changeThreadState_answers hk
        exact ⟨fun _ => ht,hu⟩
      · cases h
        exact ⟨fun ho => (by cases ho),fun _ => Iff.rfl⟩
    · cases h
      exact ⟨fun ho => (by cases ho),fun _ => Iff.rfl⟩
  · cases h
    exact ⟨fun ho => (by cases ho),fun _ => Iff.rfl⟩

theorem unlockProcess_answers {b : Bool} (h : k.unlockProcess mutex = some (b,k')) (u : ThreadId) :
    Processes.Answers k'.processes u ↔ Processes.Answers k.processes u := by
  simp only [unlockProcess] at h
  split at h
  · cases h
    exact Iff.rfl
  · obtain ⟨k₁,hk,he⟩ := Option.map_eq_some_iff.mp h
    cases he
    exact (changeThreadState_answers hk).2 u

theorem mutexUp_answers (h : k.mutexUp mutex t = some k') (u : ThreadId) :
    Processes.Answers k'.processes u ↔ Processes.Answers k.processes u := by
  rw [mutexUp] at h
  split at h
  · obtain ⟨⟨b,k₁⟩,hk,rfl⟩ := Option.map_eq_some_iff.mp h
    have hu := unlockProcess_answers hk u
    cases b <;> exact hu
  · cases h
    exact Iff.rfl

theorem unlockAll_answers (h : unlockAll mutex n k = some k') (u : ThreadId) :
    Processes.Answers k'.processes u ↔ Processes.Answers k.processes u := by
  induction n generalizing k with
  | zero =>
    unfold unlockAll at h
    split at h
    · cases h
    · cases h
      exact Iff.rfl
  | succ n ih =>
    unfold unlockAll at h
    split at h
    · obtain ⟨⟨b,k₁⟩,hk,h⟩ := Option.bind_eq_some_iff.mp h
      exact (ih h).trans (unlockProcess_answers hk u)
    · cases h
      exact Iff.rfl

theorem releaseMutexBody_answers {b : Bool} (h : k.releaseMutexBody mutex t = some (b,k'))
    (u : ThreadId) : Processes.Answers k'.processes u ↔ Processes.Answers k.processes u := by
  unfold releaseMutexBody at h
  split at h
  · obtain ⟨k₁,hk,he⟩ := Option.map_eq_some_iff.mp h
    cases he
    exact unlockAll_answers (k := k.disownMutex mutex) hk u
  · cases h
    exact Iff.rfl

theorem removeBlockedFromMutex_answers {v : Victim} {j : ℕ}
    (h : k.removeBlockedFromMutex v mutex j = some k') (u : ThreadId) :
    Processes.Answers k'.processes u ↔ Processes.Answers k.processes u := by
  simp only [removeBlockedFromMutex] at h
  split at h
  · exact (changeThreadState_answers h).2 u
  · cases h
    exact Iff.rfl

/-- Entries are counted, and each belongs to a thread whose state can be changed. -/
structure Accounted (k : Kernel) : Prop where
  ok : ∀ i, InMutexes i → (k.mutexes i).Ok
  answers : ∀ i, InMutexes i → ∀ w ∈ (k.mutexes i).list.waiters, Processes.Answers k.processes w

theorem Accounted.next (h : k.Accounted) (hok : ∀ i, InMutexes i → (k'.mutexes i).Ok)
    (hp : ∀ u, Processes.Answers k'.processes u ↔ Processes.Answers k.processes u)
    (hw : ∀ i, InMutexes i → ∀ w ∈ (k'.mutexes i).list.waiters,
      w ∈ (k.mutexes i).list.waiters ∨ Processes.Answers k.processes w) : k'.Accounted := by
  refine ⟨hok,fun i hi w hx => (hp w).mpr ?_⟩
  exact (hw i hi w hx).elim (h.answers i hi w) id

/-- One slot is written, and nobody is new on its list. -/
theorem Accounted.update {m : Mutex} (h : k.Accounted)
    (hok : ∀ i, InMutexes i → (k'.mutexes i).Ok)
    (hp : ∀ u, Processes.Answers k'.processes u ↔ Processes.Answers k.processes u)
    (hm : k'.mutexes = Function.update k.mutexes mutex m)
    (hw : InMutexes mutex → ∀ w ∈ m.list.waiters, w ∈ (k.mutexes mutex).list.waiters) :
    k'.Accounted := by
  refine h.next hok hp (fun i hi w hx => Or.inl ?_)
  rw [hm] at hx
  by_cases he : i = mutex
  · subst he
    rw [Function.update_self] at hx
    exact hw hi w hx
  · rwa [Function.update_of_ne he] at hx

theorem Accounted.sound (h : k.Accounted) : MutexTable.Sound ⟨k,∅⟩ := h.ok

/-- A piece keeps the account. -/
theorem Accounted.perform (h : k.Accounted) {p : MutexPiece} (hp : p.perform k = some k') :
    k'.Accounted := by
  cases p with
  | createMutex name t =>
    obtain rfl := Option.some.inj hp
    have hx : k.createMutex t.pid name t.thread = ((k.createMutex t.pid name t.thread).1,
      (k.createMutex t.pid name t.thread).2) := rfl
    obtain ⟨-,-,hk⟩ | ⟨-,-,-,hm,-,-,-,hps,-⟩ := createMutex_cases hx
    · rw [hk]
      exact h
    · have hsound : MutexTable.Sound ⟨(k.createMutex t.pid name t.thread).2,∅⟩ :=
        h.sound.update hm (fun hi => (h.ok _ hi).congr rfl rfl)
      exact h.update hsound (fun u => by rw [hps]) hm (fun _ w hw => hw)
  | mutexDown mutex t =>
    obtain ⟨o,hk⟩ : ∃ o, k.mutexDown mutex t.id = some (o,k') := by
      simp only [MutexPiece.perform] at hp
      split at hp
      · rename_i hd
        exact ⟨_,Option.some.inj hp ▸ hd⟩
      · rename_i hd
        exact ⟨_,Option.some.inj hp ▸ hd⟩
      · cases hp
    have hstep : MutexTable.step ⟨k,∅⟩ (.mutexDown mutex t.id) = some ⟨k',∅⟩ := by
      simp only [MutexTable.step,t.used,true_or,↓reduceIte,hk]
      rfl
    obtain ⟨ht,hu⟩ := mutexDown_answers hk
    refine h.next (MutexTable.step_sound h.sound hstep) hu (fun i hi w hw => ?_)
    obtain ⟨-,-,rfl⟩ | ⟨-,-,m,hm,htable⟩ := mutexDown_cases hk
    · exact Or.inl hw
    · rw [htable] at hw
      by_cases he : i = mutex
      · subst he
        rw [marked_self] at hw
        cases hm with
        | free => exact Or.inl hw
        | queued _ ha =>
          rcases BlockedList.waiters_add ha hw with rfl | hw
          · exact Or.inr (ht rfl)
          · exact Or.inl hw
        | full => exact Or.inl hw
      · rw [(marked_of_ne he).1] at hw
        exact Or.inl hw
  | mutexUp mutex t =>
    have hk : k.mutexUp mutex t = some k' := hp
    have hstep : MutexTable.step ⟨k,∅⟩ (.mutexUp mutex t) = some ⟨k',∅⟩ := by
      simp only [MutexTable.step,hk]
      rfl
    have hok := MutexTable.step_sound h.sound hstep
    obtain ⟨-,rfl⟩ | ⟨-,-,-,m,hg,hm⟩ := mutexUp_cases hk
    · exact h
    · refine h.update hok (mutexUp_answers hk) hm (fun _ w hw => ?_)
      cases hg with
      | free => exact hw
      | handed hpop =>
        rw [BlockedList.waiters_pop hpop]
        exact List.mem_cons_of_mem _ hw
  | releaseMutexBody mutex t =>
    obtain ⟨⟨b,k₁⟩,hk,rfl⟩ := Option.map_eq_some_iff.mp hp
    have hstep : MutexTable.step ⟨k,∅⟩ (.releaseMutex mutex t.id) = some ⟨k₁,∅⟩ := by
      simp only [MutexTable.step,hk]
      cases b <;> rfl
    have hok := MutexTable.step_sound h.sound hstep
    obtain ⟨-,-,rfl⟩ | ⟨-,-,-,-,m,hm,-,-,-,hq,hc,-⟩ := releaseMutexBody_cases hk
    · exact h
    · refine h.update hok (releaseMutexBody_answers hk) hm (fun hi w hw => ?_)
      have hcount := hc (h.ok mutex hi).counted
      have hlen := BlockedList.counted_iff.mp hcount
      have hnil : m.list.waiters = [] := List.length_eq_zero_iff.mp (by omega)
      rw [hnil] at hw
      cases hw
  | removeBlocked v i j =>
    have hk : k.removeBlockedFromMutex v (i : ℕ) j = some k' := hp
    have hi : InMutexes ((i : ℕ) : ℤ) := ⟨Int.natCast_nonneg _,by
      have := i.isLt
      omega⟩
    have hstep : MutexTable.step ⟨k,∅⟩ (.removeBlocked v (i : ℕ) j) = some ⟨k',∅⟩ := by
      simp only [MutexTable.step,hi,j.isLt,and_self,↓reduceIte,hk]
      rfl
    have hok := MutexTable.step_sound h.sound hstep
    obtain ⟨-,rfl⟩ | ⟨-,-,hm⟩ := removeBlockedFromMutex_cases hk
    · exact h
    · exact h.update hok (removeBlockedFromMutex_answers hk) hm
        (fun _ w hw => BlockedList.waiters_remove hw)

theorem start_accounted (k : Kernel) : (MutexTable.start k).kernel.Accounted := by
  obtain ⟨hslots,-,-⟩ := MutexTable.start_spec (k := k)
  refine ⟨MutexTable.start_tidy.sound,fun i hi w hw => ?_⟩
  obtain ⟨hu,j,hj,rfl⟩ := mem_entries.mp hw
  have hnone : ∀ m : Mutex, ¬ (m.clear.list.blocked j).used := by
    intro m hx
    simp [Mutex.clear,hj,ThreadId.used] at hx
  rw [hslots i hi] at hu
  split at hu
  · exact absurd hu (hnone _)
  · exact absurd hu (hnone _)

/-! ### The loop of `releaseMutex` -/

theorem changeThreadState_others {st : ProcessState} (h : k.changeThreadState t st = some k') :
    (∀ u, u ≠ t → k'.threadState u = k.threadState u) ∧
      (Processes.Real k.processes t → k'.threadState t = some st) ∧
      ∀ u, Processes.Real k'.processes u ↔ Processes.Real k.processes u := by
  obtain ⟨ps,hps,rfl⟩ := Option.map_eq_some_iff.mp h
  refine ⟨fun u hu => ?_,fun ht => ?_,fun u => ?_⟩
  · rcases Processes.changeThreadState_cases hps with rfl | rfl
    · exact threadState_of_set_ne rfl hu
    · rfl
  · rw [Processes.changeThreadState_real ht] at hps
    cases hps
    exact threadState_of_set rfl ht.isSome
  · rcases Processes.changeThreadState_cases hps with rfl | rfl
    · exact Processes.real_set
    · exact Iff.rfl

/-- Every thread that is on the list is READY, the list is empty, and no other thread and no
other mutex has changed. -/
structure Drained (k : Kernel) (mutex : ℤ) (k' : Kernel) : Prop where
  ready : ∀ w ∈ (k.mutexes mutex).list.waiters, Processes.Real k.processes w →
    k'.threadState w = some .ready
  empty : (k'.mutexes mutex).list.waiters = []
  quantity : (k'.mutexes mutex).list.blockedQuantity = 0
  state : ∀ u, u ∉ (k.mutexes mutex).list.waiters → k'.threadState u = k.threadState u
  other : ∀ i, i ≠ mutex → k'.mutexes i = k.mutexes i
  semaphores : k'.semaphores = k.semaphores

/-- One round. -/
theorem unlockProcess_round (hc : (k.mutexes mutex).list.Counted) {ws : List ThreadId}
    (hw : (k.mutexes mutex).list.waiters = w::ws) (ha : Processes.Answers k.processes w) :
    ∃ k₁, k.unlockProcess mutex = some (true,k₁) ∧ (k₁.mutexes mutex).lockProcess = w ∧
      (k₁.mutexes mutex).list.waiters = ws ∧ (k₁.mutexes mutex).list.Counted ∧
      (∀ u, u ≠ w → k₁.threadState u = k.threadState u) ∧
      (Processes.Real k.processes w → k₁.threadState w = some .ready) ∧
      (∀ u, Processes.Real k₁.processes u ↔ Processes.Real k.processes u) ∧
      (∀ u, Processes.Answers k₁.processes u ↔ Processes.Answers k.processes u) ∧
      (∀ i, i ≠ mutex → k₁.mutexes i = k.mutexes i) ∧ k₁.semaphores = k.semaphores := by
  have hq : (k.mutexes mutex).list.blockedQuantity > 0 := by
    rw [BlockedList.counted_iff.mp hc,hw,List.length_cons]
    omega
  obtain ⟨v,l,hp⟩ := hc.pop_some hq
  obtain ⟨rfl,rfl⟩ := List.cons.inj (hw.symm.trans (BlockedList.waiters_pop hp))
  obtain ⟨k₁,hk⟩ : ∃ k₁, (k.setMutex mutex { k.mutexes mutex with
      lockProcess := w, list := l }).changeThreadState w .ready = some k₁ := by
    have hsome : (Processes.changeThreadState k.processes w .ready).isSome :=
      Processes.changeThreadState_isSome.mpr ha
    obtain ⟨ps,hps⟩ := Option.isSome_iff_exists.mp hsome
    exact ⟨_,Option.map_eq_some_iff.mpr ⟨ps,hps,rfl⟩⟩
  obtain ⟨hm,hr⟩ := changeThreadState_table hk
  obtain ⟨hstate,hready,hreal⟩ := changeThreadState_others hk
  have hself : k₁.mutexes mutex = { k.mutexes mutex with lockProcess := w, list := l } := by
    rw [hm,setMutex_mutexes_self]
  refine ⟨k₁,?_,by rw [hself],by rw [hself],by rw [hself]; exact hc.pop hp,hstate,hready,hreal,
    (changeThreadState_answers hk).2,fun i hi => ?_,hr.semaphores⟩
  · unfold unlockProcess
    simp only [hp,hk,Option.map_some]
  · rw [hm,setMutex_mutexes_of_ne _ hi]

/-- The loop wakes the threads of the list in turn, each as often as it is on the list. -/
theorem unlockTrace_spec {ws : List ThreadId} (hc : (k.mutexes mutex).list.Counted)
    (hw : (k.mutexes mutex).list.waiters = ws) (ha : ∀ w ∈ ws, Processes.Answers k.processes w)
    (hn : ws.length ≤ n) : ∃ k', unlockTrace mutex n k = some (ws,k') ∧ Drained k mutex k' := by
  induction ws generalizing k n with
  | nil =>
    have hq : (k.mutexes mutex).list.blockedQuantity = 0 := by
      rw [BlockedList.counted_iff.mp hc,hw]
      rfl
    refine ⟨k,?_,fun w hx => ?_,hw,hq,fun _ _ => rfl,fun _ _ => rfl,rfl⟩
    · unfold unlockTrace
      rw [if_neg (by omega)]
    · rw [hw] at hx
      cases hx
  | cons w ws ih =>
    obtain ⟨m,rfl⟩ := Nat.exists_eq_succ_of_ne_zero (Nat.ne_zero_of_lt hn)
    have hq : (k.mutexes mutex).list.blockedQuantity > 0 := by
      rw [BlockedList.counted_iff.mp hc,hw,List.length_cons]
      omega
    obtain ⟨k₁,hk,hlock,hw₁,hc₁,hstate,hready,hreal,hans,hother,hsem⟩ :=
      unlockProcess_round hc hw (ha w List.mem_cons_self)
    obtain ⟨k',hk',hd⟩ := ih hc₁ hw₁
      (fun u hu => (hans u).mpr (ha u (List.mem_cons_of_mem _ hu))) (Nat.le_of_succ_le_succ hn)
    refine ⟨k',?_,fun u hu hx => ?_,hd.empty,hd.quantity,fun u hu => ?_,fun i hi => ?_,?_⟩
    · unfold unlockTrace
      rw [if_pos hq]
      simp only [hk,Option.bind_some,hk',Option.map_some,↓reduceIte,hlock]
    · -- a thread with another entry is woken again, any other one stays as it is
      by_cases hm : u ∈ ws
      · exact hd.ready u (hw₁ ▸ hm) ((hreal u).mpr hx)
      · rw [hw] at hu
        obtain rfl := (List.mem_cons.mp hu).resolve_right hm
        rw [hd.state u (hw₁ ▸ hm)]
        exact hready hx
    · rw [hw] at hu
      have hne : u ≠ w := fun he => hu (he ▸ List.mem_cons_self)
      have hmem : u ∉ ws := fun hm => hu (List.mem_cons_of_mem _ hm)
      rw [hd.state u (hw₁ ▸ hmem),hstate u hne]
    · rw [hd.other i hi,hother i hi]
    · rw [hd.semaphores,hsem]

theorem unlockAll_of_trace {ws : List ThreadId} (h : unlockTrace mutex n k = some (ws,k')) :
    unlockAll mutex n k = some k' := by
  rw [← unlockTrace_unlockAll,h]
  rfl

end Kernel

namespace MutexCalls
variable {k : Kernel} {s s' : MutexCalls} {ls : List Label} {l : Label} {i : ℤ}

theorem step_accounted (h : s.kernel.Accounted) (hs : s.step l = some s') :
    s'.kernel.Accounted := by
  cases l with
  | call c =>
    cases hs
    exact h
  | advance i =>
    obtain ⟨x,-,hx⟩ := Option.bind_eq_some_iff.mp hs
    cases x with
    | done => cases hx
    | piece p next =>
      obtain ⟨k,hk,rfl⟩ := Option.map_eq_some_iff.mp hx
      exact h.perform hk
    | branch f =>
      cases hx
      exact h

/-- In every state of every run each count is the number of entries. The loop of a release
ends with each entry woken once and the list empty, and a mutex that `mutexUp` leaves
UNLOCKED has no waiter. -/
theorem mutex_waiters (hr : Runs.run step (start k) ls = some s) (hi : InMutexes i) :
    (s.kernel.mutexes i).list.blockedQuantity = (s.kernel.mutexes i).list.waiters.length ∧
      (∃ k', Kernel.unlockTrace i maxBlocked (s.kernel.disownMutex i) =
          some ((s.kernel.mutexes i).list.waiters,k') ∧
        Kernel.Drained s.kernel i k' ∧
        ∀ t, s.kernel.isValidMutex i → (s.kernel.mutexes i).creator = t →
          s.kernel.releaseMutexBody i t = some (true,k')) ∧
      ∀ t k', s.kernel.mutexUp i t = some k' → (k'.mutexes i).value = unlocked →
        (s.kernel.mutexes i).list.waiters = [] := by
  have h : s.kernel.Accounted := Runs.invariant (I := fun s => s.kernel.Accounted)
    (fun _ _ _ => step_accounted) (Kernel.start_accounted k) hr
  have hok := h.ok i hi
  refine ⟨BlockedList.counted_iff.mp hok.counted,?_,fun t k' hup hv => ?_⟩
  · have hself : (s.kernel.disownMutex i).mutexes i = { s.kernel.mutexes i with
        creator := { (s.kernel.mutexes i).creator with pid := notUsed }
        lockProcess := { (s.kernel.mutexes i).lockProcess with pid := notUsed } } :=
      Kernel.setMutex_mutexes_self s.kernel i _
    have hlist : ((s.kernel.disownMutex i).mutexes i).list = (s.kernel.mutexes i).list := by
      rw [hself]
    have hcounted : ((s.kernel.disownMutex i).mutexes i).list.Counted := by
      rw [hlist]
      exact hok.counted
    obtain ⟨k',hk,hd⟩ := Kernel.unlockTrace_spec hcounted (congrArg BlockedList.waiters hlist)
      (h.answers i hi) length_entries_le
    have hready := hd.ready
    have hstate := hd.state
    rw [hlist] at hready hstate
    refine ⟨k',hk,⟨hready,hd.empty,hd.quantity,hstate,fun j hj => ?_,hd.semaphores⟩,
      fun t hv ht => ?_⟩
    · rw [hd.other j hj]
      exact Kernel.setMutex_mutexes_of_ne _ hj _
    · unfold Kernel.releaseMutexBody
      rw [if_pos ⟨hv,ht⟩,Kernel.unlockAll_of_trace hk]
      rfl
  · have hidle : (s.kernel.mutexes i).value = unlocked → (s.kernel.mutexes i).list.waiters = [] := by
      intro hv
      have hlen := BlockedList.counted_iff.mp hok.counted
      have hq := hok.idle (by rw [hv]; decide)
      exact List.length_eq_zero_iff.mp (by omega)
    obtain ⟨-,rfl⟩ | ⟨-,-,-,m,hg,hm⟩ := Kernel.mutexUp_cases hup
    · exact hidle hv
    · rw [hm,Function.update_self] at hv
      cases hg with
      | free hp =>
        have hq := hok.counted.pop_none.mp hp
        have hlen := BlockedList.counted_iff.mp hok.counted
        exact List.length_eq_zero_iff.mp (by omega)
      | handed => exact hidle hv

/-- One thread holds the third mutex, another waits for it, and the first has begun to release
it. (The lock of `adminMutex` takes the creator of the second one away.) -/
def releasing : List Label :=
  [.call (.createMutex [95] ⟨0,0,by decide⟩),.advance 0,.call (.createMutex [96] ⟨1,0,by decide⟩),
    .advance 1,.call (.createMutex [97] ⟨1,0,by decide⟩),.advance 2,
    .call (.mutexDown 2 ⟨1,0,by decide⟩),.advance 3,.call (.mutexDown 2 ⟨2,0,by decide⟩),.advance 4,
    .call (.releaseMutex 2 ⟨1,0,by decide⟩),.advance 5]

theorem mutex_waiters_drained : ∃ s k',
    Runs.run step (start { Kernel.static with processes := Processes.twoThreads }) releasing = some s ∧
      (s.kernel.mutexes 2).list.waiters = [⟨2,0⟩] ∧
      s.kernel.releaseMutexBody 2 ⟨1,0⟩ = some (true,k') ∧ Kernel.Drained s.kernel 2 k' ∧
      k'.threadState ⟨2,0⟩ = some .ready := by
  have hrun : (Runs.run step (start { Kernel.static with processes := Processes.twoThreads })
      releasing).map (fun s => decide ((s.kernel.mutexes 2).list.waiters = [⟨2,0⟩] ∧
        s.kernel.isValidMutex 2 ∧ (s.kernel.mutexes 2).creator = ⟨1,0⟩ ∧
        Processes.Real s.kernel.processes ⟨2,0⟩)) = some true := by decide +kernel
  obtain ⟨s,hr,hd⟩ := Option.map_eq_some_iff.mp hrun
  obtain ⟨hw,hv,hc,hreal⟩ := of_decide_eq_true hd
  obtain ⟨-,⟨k',-,hdrained,hrelease⟩,-⟩ := mutex_waiters (i := 2) hr (by decide)
  refine ⟨s,k',hr,hw,hrelease _ hv hc,hdrained,hdrained.ready _ ?_ hreal⟩
  rw [hw]
  exact List.mem_singleton_self _

end MutexCalls
end ComplexOS
