import ComplexOS.Kernel.Kill
import ComplexOS.Kernel.Timer
import ComplexOS.Terminal.KeyboardBuffer

/-! # The keyboard, the foreground and the sleepers

What `terminal.c`, `timer.c` and the foreground process of `scheduler.c` add to the
tables of the blocking primitives. All three set states of threads without a look at
the blocked lists.
-/
namespace ComplexOS

/-- `T` is what is left of every call that a thread is in, the innermost first; `why` is
a ghost, the list that a thread was last put on when it was made BLOCKED. -/
structure System (Task : Type) where
  kernel : Kernel
  semaphoreMutex : ℤ
  /-- The pid behind the pointer, NULL before there is one. -/
  foreground : Option ℤ
  terminal : Terminal
  timer : Timer
  calls : ThreadId → List Task
  why : ThreadId → Option Queue

namespace Kernel
variable (k : Kernel) (t : ThreadId)

def Listed : Prop := ∃ q : Queue, q.InRange ∧ ∃ i < maxBlocked, (k.list q).blocked i = t

/-- The thread that becomes READY when the foreground passes to the parent of `pid`. -/
def heir (pid : ℤ) : Option ThreadId :=
  (k.processes pid).bind (fun p =>
    (k.processes p.ppid).map (fun parent => ⟨p.ppid,parent.currentThread⟩))

variable {k t} {k' : Kernel} {why why' : ThreadId → Option Queue} {kills : ThreadId → Prop}
  {waiting : Queue → Finset ThreadId} {q : Queue} {st : ProcessState}

theorem Waits.not_waiting (h : k.Waits why waiting) (hl : ¬ k.Listed t) : t ∉ waiting q :=
  fun hm => hl ⟨q,h.ranged q t hm,(h.lists q (h.ranged q t hm)).slot t hm⟩

/-- Who is on a list is BLOCKED, unless it is gone. -/
theorem Waits.listed (h : k.Waits why waiting) (hl : k.Listed t) :
    k.threadState t = some .blocked ∨ k.threadState t = none := by
  obtain ⟨q,hq,i,hi,rfl⟩ := hl
  cases hs : k.threadState ((k.list q).blocked i) with
  | none => exact Or.inr rfl
  | some st =>
    have hu := (h.named _ (by rw [hs]; rfl)).1
    simpa [hs] using h.discipline.sleeps q _ ((h.lists q hq).entry i hi hu)

theorem Waits.not_listed (h : k.Waits why waiting) (hs : k.threadState t = some .ready) :
    ¬ k.Listed t := by
  intro hl
  rcases h.listed hl with hb | hb <;> rw [hs] at hb <;> cases hb

/-- One thread that is on no list gets another state. -/
theorem Effect.setState (h : k.Waits why waiting) (hl : ∀ q, q.InRange → k'.list q = k.list q)
    (hn : ∀ q, t ∉ waiting q) (hs : ∀ u, u ≠ t → k'.threadState u = k.threadState u)
    (ht : k'.threadState t = (k.threadState t).map (fun _ => st))
    (hw : why' = why ∧ st ≠ .blocked ∨ why' = Function.update why t none ∧ (k.threadState t).isSome) :
    Effect kills why why' k k' := by
  refine Effect.frame h hl (fun u => ?_)
  by_cases hu : u = t
  · subst hu
    rw [ht]
    rcases hw with ⟨rfl,hst⟩ | ⟨rfl,hx⟩
    · cases hx : k.threadState u with
      | none => exact Or.inl ⟨rfl,Or.inr rfl⟩
      | some y => exact Or.inr ⟨hn,rfl,fun hb => absurd (Option.some.inj hb) hst⟩
    · exact Or.inr ⟨hn,hx,fun _ => Function.update_self _ _ _⟩
  · refine Or.inl ⟨?_,Or.inl (hs u hu)⟩
    rcases hw with ⟨rfl,-⟩ | ⟨rfl,-⟩
    · rfl
    · exact Function.update_of_ne hu _ _

theorem changeThreadState_effect (h : k.Waits why waiting) (hn : ∀ q, t ∉ waiting q)
    (hx : k.changeThreadState t st = some k')
    (hw : why' = why ∧ st ≠ .blocked ∨ why' = Function.update why t none ∧ (k.threadState t).isSome) :
    Effect kills why why' k k' := by
  obtain ⟨hm,hs,-,hother,hself⟩ := changeThreadState_spec h.named hx
  exact Effect.setState h (fun q _ => list_of_tables hm hs) hn hother hself hw

/-- A switch takes the processor from a thread that is on no list and gives it to one. -/
theorem dispatch_effect (h : k.Waits why waiting) (ht : (k.threadState t).isSome)
    (hn : ∀ q, t ∉ waiting q) : Effect kills why why k (k.dispatch t) := by
  refine Effect.frame h (fun q _ => list_of_tables rfl rfl) (fun u => ?_)
  rw [threadState_dispatch ht]
  by_cases hu : u = t
  · rw [if_pos hu,hu]
    exact Or.inr ⟨hn,ht,fun hb => by cases hb⟩
  · rw [if_neg hu]
    split
    · rename_i hc
      exact Or.inr ⟨fun q => h.awake hc.2 (by decide),by rw [hc.2]; rfl,fun hb => by cases hb⟩
    · exact Or.inl ⟨rfl,Or.inl rfl⟩

theorem threadState_store {u : ThreadId} :
    Processes.threadState (Processes.setThreadState k.processes t st) u =
      if u = t then (k.threadState t).map (fun _ => st) else k.threadState u := by
  by_cases hu : u = t
  · rw [if_pos hu,hu,Processes.threadState_set_self,threadState]
  · rw [if_neg hu,Processes.threadState_set_of_ne hu,threadState]

/-- Orphans move to another parent, the process that is killed stays where it is. -/
theorem heir_changeChildrenToOrphan {pid : ℤ} {p : Process} (hp : k.processes pid = some p) :
    (k.changeChildrenToOrphan pid p.ppid).heir pid = k.heir pid := by
  have hself : (if p.ppid = pid then { p with ppid := p.ppid } else p).ppid = p.ppid := by
    split <;> rfl
  simp only [heir,changeChildrenToOrphan,hp,Option.map_some,Option.bind_some,hself,Option.map_map]
  congr 1
  funext x
  simp only [Function.comp_apply]
  split <;> rfl

end Kernel

namespace Timer
variable {T T' : Timer} {t : ThreadId}

theorem changeThreadState_spec {st : ProcessState} (h : T.changeThreadState t st = some T') :
    Processes.changeThreadState T.processes t st = some T'.processes := by
  obtain ⟨ps,hps,rfl⟩ := Option.map_eq_some_iff.mp h
  exact hps

theorem addSleepingProcess_processes {n : ℕ} : (T.addSleepingProcess t n).processes = T.processes := by
  rw [addSleepingProcess]
  split <;> rfl

/-- A call of `sleep` stores SLEEPING or nothing. -/
theorem sleep_spec {milliseconds : ℕ} (h : T.sleep t milliseconds = some T') :
    T'.processes = T.processes ∨
      Processes.changeThreadState T.processes t .sleeping = some T'.processes := by
  simp only [sleep] at h
  split at h
  · have hs := changeThreadState_spec h
    rw [addSleepingProcess_processes] at hs
    exact Or.inr hs
  · cases h
    exact Or.inl rfl

/-- The end of a sleep stores READY or nothing. -/
theorem removeSleepingProcess_spec (h : T.removeSleepingProcess t = some T') :
    T'.processes = T.processes ∨
      Processes.changeThreadState T.processes t .ready = some T'.processes := by
  rw [removeSleepingProcess] at h
  split at h
  · cases h
    exact Or.inl rfl
  · obtain ⟨T₁,h₁,h⟩ := Option.bind_eq_some_iff.mp h
    have hs := changeThreadState_spec h₁
    cases h
    exact Or.inr hs

end Timer

namespace System
variable {Task : Type} (s : System Task)

/-- `foreground->currentThread`; `none` is a pointer to no process. -/
def foregroundThread : Option ThreadId :=
  s.foreground.bind (fun pid => (s.kernel.processes pid).map (fun p => ⟨pid,p.currentThread⟩))

def isForeground (pid : ℤ) : Option Bool := s.foreground.map (fun fg => decide (fg = pid))

def storeState (t : ThreadId) (st : ProcessState) : System Task :=
  { s with kernel := { s.kernel with processes := Processes.setThreadState s.kernel.processes t st } }

def forget (t : ThreadId) : System Task := { s with why := Function.update s.why t none }

/-- `blockRead` up to its yield. -/
def blockRead : Option (System Task) :=
  s.foregroundThread.bind (fun t => (s.kernel.threadState t).map (fun st =>
    if st ≠ .blocked then (s.storeState t .blocked).forget t else s))

def unblockRead : Option (System Task) :=
  s.foregroundThread.bind (fun t => (s.kernel.threadState t).map (fun st =>
    if st = .blocked then s.storeState t .ready else s))

/-- What `sysRead` does to a caller that is not in the foreground. -/
def blockCaller : Option (System Task) :=
  (s.kernel.changeThreadState s.kernel.caller .blocked).map (fun k =>
    { s with kernel := k }.forget s.kernel.caller)

/-- `killProcess` up to `removePidFromMutexes`. A foreground whose parent is gone is
replaced by what lies before the table, which is no step. -/
def leaveForeground (pid : ℤ) (p : Process) : Option (System Task) :=
  let k := s.kernel.changeChildrenToOrphan pid p.ppid
  s.foreground.bind (fun fg =>
    if fg = pid then
      (k.heir pid).bind (fun t => (k.changeThreadState t .ready).map (fun k =>
        { s with kernel := k, terminal := s.terminal.resetBuffer, foreground := some t.pid }))
    else some { s with kernel := k })

def clock : Timer := { s.timer with processes := s.kernel.processes }

def setClock (T : Timer) : System Task :=
  { s with timer := T, kernel := { s.kernel with processes := T.processes } }

variable {s} {s' : System Task} {kills : ThreadId → Prop} {waiting : Queue → Finset ThreadId}
  {t : ThreadId} {st : ProcessState}
open Kernel

theorem storeState_effect {why : ThreadId → Option Queue} (h : s.kernel.Waits s.why waiting)
    (hn : ∀ q, t ∉ waiting q)
    (hw : why = s.why ∧ st ≠ .blocked ∨ why = Function.update s.why t none ∧
      (s.kernel.threadState t).isSome) :
    Effect kills s.why why s.kernel (s.storeState t st).kernel :=
  Effect.setState h (fun _ _ => list_of_tables rfl rfl) hn
    (fun _ hu => threadState_store.trans (if_neg hu)) (threadState_store.trans (if_pos rfl)) hw

theorem blockRead_effect (h : s.kernel.Waits s.why waiting) (hx : s.blockRead = some s') :
    Effect kills s.why s'.why s.kernel s'.kernel := by
  obtain ⟨t,-,hx⟩ := Option.bind_eq_some_iff.mp hx
  obtain ⟨st,hst,rfl⟩ := Option.map_eq_some_iff.mp hx
  split
  · rename_i hb
    exact storeState_effect h (fun _ => h.awake hst hb) (Or.inr ⟨rfl,by rw [hst]; rfl⟩)
  · exact Effect.same h (fun _ _ => rfl) rfl

/-- Enter wakes the foreground thread whatever it is BLOCKED for. -/
theorem unblockRead_effect (h : s.kernel.Waits s.why waiting)
    (hn : ∀ t ∈ s.foregroundThread, ¬ s.kernel.Listed t) (hx : s.unblockRead = some s') :
    Effect kills s.why s'.why s.kernel s'.kernel := by
  obtain ⟨t,ht,hx⟩ := Option.bind_eq_some_iff.mp hx
  obtain ⟨st,-,rfl⟩ := Option.map_eq_some_iff.mp hx
  split
  · exact storeState_effect h (fun _ => h.not_waiting (hn t ht)) (Or.inl ⟨rfl,by decide⟩)
  · exact Effect.same h (fun _ _ => rfl) rfl

theorem blockCaller_effect (h : s.kernel.Waits s.why waiting)
    (ha : (s.kernel.threadState s.kernel.caller).isSome) (hl : ¬ s.kernel.Listed s.kernel.caller)
    (hx : s.blockCaller = some s') : Effect kills s.why s'.why s.kernel s'.kernel := by
  obtain ⟨k,hk,rfl⟩ := Option.map_eq_some_iff.mp hx
  exact changeThreadState_effect h (fun q => h.not_waiting hl) hk (Or.inr ⟨rfl,ha⟩)

theorem leaveForeground_effect {pid : ℤ} {p : Process} (h : s.kernel.Waits s.why waiting)
    (hp : s.kernel.processes pid = some p)
    (hn : s.foreground = some pid → ∀ t ∈ s.kernel.heir pid, ¬ s.kernel.Listed t)
    (hx : s.leaveForeground pid p = some s') :
    Effect kills s.why s'.why s.kernel s'.kernel := by
  obtain ⟨fg,hfg,hx⟩ := Option.bind_eq_some_iff.mp hx
  have horphan : ∀ u, (s.kernel.changeChildrenToOrphan pid p.ppid).threadState u =
      s.kernel.threadState u := fun u => threadState_changeChildrenToOrphan
  split at hx
  · rename_i he
    obtain ⟨t,ht,hx⟩ := Option.bind_eq_some_iff.mp hx
    obtain ⟨k,hk,rfl⟩ := Option.map_eq_some_iff.mp hx
    rw [heir_changeChildrenToOrphan hp] at ht
    have hnamed : (s.kernel.changeChildrenToOrphan pid p.ppid).Named :=
      fun u hu => h.named u (horphan u ▸ hu)
    obtain ⟨hm,hs,-,hother,hself⟩ := changeThreadState_spec hnamed hk
    exact Effect.setState h (fun q _ => list_of_tables hm hs)
      (fun _ => h.not_waiting (hn (he ▸ hfg) t ht))
      (fun u hu => (hother u hu).trans (horphan u)) (hself.trans (by rw [horphan])) (Or.inl ⟨rfl,by decide⟩)
  · cases hx
    exact Effect.frame h (fun q _ => list_of_tables rfl rfl)
      (fun u => Or.inl ⟨rfl,Or.inl (horphan u)⟩)

theorem setClock_effect {T : Timer} (st : ProcessState) (h : s.kernel.Waits s.why waiting) (hn : ∀ q, t ∉ waiting q)
    (hst : st ≠ .blocked) (hT : T.processes = s.kernel.processes ∨
      Processes.changeThreadState s.kernel.processes t st = some T.processes) :
    Effect kills s.why s.why s.kernel (s.setClock T).kernel := by
  rcases hT with hT | hT
  · exact Effect.same h (fun _ _ => list_of_tables rfl rfl) hT
  · refine changeThreadState_effect h hn ?_ (Or.inl ⟨rfl,hst⟩)
    rw [changeThreadState,hT]
    rfl

end System
end ComplexOS
