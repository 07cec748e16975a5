import ComplexOS.Kernel.Threads
import ComplexOS.Library.AtomicObjects
import ComplexOS.Library.Census
import ComplexOS.Library.Lifo
import ComplexOS.Library.Runs

/-! # Producers and consumers

`prodcons.c`. Producers and consumers share `buffer` and `index` and go through their loops
statement by statement, and `main` keeps their pids in two arrays. The calls of the kernel
that they make are the operations of two counters and a lock, which decide when a call comes
back. A worker may be killed between any two of its statements, by `main` or by others.
-/
namespace ComplexOS
open Census

def maxBuffer : ℕ := 5

def maxWorkers : ℕ := 5

def products : List UInt8 := [97,98,99,100,101,102,103]

/-- What a worker does next: sleep, look at `index`, `wait`, `mutexDown`, access the buffer
(a consumer in two statements), `mutexUp`, `signal`, print. -/
inductive WorkerPhase
  | sleeping | looking | waiting | permitted | locked | lowered | moved | released | printing
  deriving DecidableEq, Repr

structure Worker where
  thread : ThreadId
  produces : Bool
  /-- `producerNumber` or `consumerNumber`. -/
  number : ℤ
  productIndex : ℕ
  /-- `product` or `consumed`. -/
  item : UInt8
  phase : WorkerPhase

inductive PrintedLine
  | fullBuffer
  | emptyBuffer
  | producer (number : ℤ) (product : UInt8) (place : ℤ)
  | consumer (number : ℤ) (consumed : UInt8) (place : ℤ)
  deriving DecidableEq, Repr

/-- The static memory, and as ghosts what has been moved, how many permits went with workers
that were killed, the item lost with one, and whether one was killed with the mutex. -/
structure ProdCons where
  main : ThreadId
  bufferMutex : ℤ
  emptySem : ℤ
  producedSem : ℤ
  producerIndex : ℕ
  producerPid : ℕ → ℤ
  consumerIndex : ℕ
  consumerPid : ℕ → ℤ
  /-- How many signals `main` has sent to `emptySem`. -/
  signalled : ℕ
  buffer : ℤ → UInt8
  index : ℤ
  workers : List Worker
  printed : List PrintedLine
  moves : List (Lifo.Move UInt8)
  lostEmpty : ℕ
  lostProduced : ℕ
  torn : ℕ
  wedged : Bool

/-- A permit or the mutex may have been handed over to a worker that is killed in its call. -/
inductive ProdConsStep
  | signal
  /-- `p` and `c`. -/
  | create (pid : ℤ) (produces : Bool)
  /-- `p` and `c` where `runProcess` fails. -/
  | refused (ret : ℤ) (produces : Bool)
  /-- `k` and `x`. -/
  | remove (produces granted : Bool)
  | statement (i : ℕ)
  | kill (i : ℕ) (granted : Bool)
  deriving DecidableEq, Repr

namespace Worker
variable (w : Worker)

/-- The wait has come back and the item has not been moved. -/
def claims (produces : Bool) (w : Worker) : Bool :=
  decide (w.produces = produces ∧ (w.phase = .permitted ∨ w.phase = .locked ∨ w.phase = .lowered))

/-- The item has been moved and the signal is still to come. -/
def owes (produces : Bool) (w : Worker) : Bool :=
  decide (w.produces = produces ∧ (w.phase = .moved ∨ w.phase = .released))

def puts : Bool := decide (w.produces = true ∧ w.phase = .locked)
def takes : Bool := decide (w.phase = .lowered)

def critical : Bool := decide (w.phase = .locked ∨ w.phase = .lowered ∨ w.phase = .moved)

def goTo (p : WorkerPhase) : Worker := { w with phase := p }

def after : WorkerPhase :=
  match w.phase with
  | .sleeping => .looking
  | .looking => .waiting
  | .waiting => .permitted
  | .permitted => .locked
  | .locked => if w.produces then .moved else .lowered
  | .lowered => .moved
  | .moved => .released
  | .released => .printing
  | .printing => .sleeping

end Worker

namespace ProdCons
variable (s : ProdCons) (w : Worker)

def start (main : ThreadId) (bufferMutex emptySem producedSem : ℤ) (buffer : ℤ → UInt8) : ProdCons :=
  ⟨main,bufferMutex,emptySem,producedSem,0,fun _ => 0,0,fun _ => 0,0,buffer,0,[],[],[],0,0,0,false⟩

def print (line : PrintedLine) : ProdCons := { s with printed := s.printed++[line] }

/-- The next statement of the loop of `producer`. -/
def producer : Option (ProdCons × Worker) :=
  match w.phase with
  | .sleeping =>
    let productIndex := if w.productIndex = products.length then 0 else w.productIndex
    some (s,{ w with productIndex := productIndex+1, item := products.getD productIndex 0, phase := .looking })
  | .looking => some (if s.index = maxBuffer then s.print .fullBuffer else s,w.goTo .waiting)
  | .waiting => some (s,w.goTo .permitted)
  | .permitted => some (s,w.goTo .locked)
  | .locked => some ({ s with
      buffer := Function.update s.buffer s.index w.item
      index := s.index+1
      moves := s.moves++[.put w.item] },w.goTo .moved)
  | .lowered => none
  | .moved => some (s,w.goTo .released)
  | .released => some (s,w.goTo .printing)
  | .printing => some (s.print (.producer w.number w.item (s.index-1)),w.goTo .sleeping)

/-- The next statement of the loop of `consumer`. -/
def consumer : Option (ProdCons × Worker) :=
  match w.phase with
  | .sleeping => some (s,w.goTo .looking)
  | .looking => some (if s.index = 0 then s.print .emptyBuffer else s,w.goTo .waiting)
  | .waiting => some (s,w.goTo .permitted)
  | .permitted => some (s,w.goTo .locked)
  | .locked => some ({ s with index := s.index-1 },w.goTo .lowered)
  | .lowered => some ({ s with moves := s.moves++[.take (s.buffer s.index)] },
      { w with item := s.buffer s.index, phase := .moved })
  | .moved => some (s,w.goTo .released)
  | .released => some (s,w.goTo .printing)
  | .printing => some (s.print (.consumer w.number w.item s.index),w.goTo .sleeping)

def statement : Option (ProdCons × Worker) := if w.produces then s.producer w else s.consumer w

def operation : Option (Atomic.Operation ℤ ℤ) :=
  match w.phase with
  | .waiting => some (.wait (if w.produces then s.emptySem else s.producedSem))
  | .permitted => some (.down s.bufferMutex)
  | .moved => some (.up s.bufferMutex)
  | .released => some (.signal (if w.produces then s.producedSem else s.emptySem))
  | _ => none

/-- `producerPid[producerIndex-1] = pid` or its counterpart, with the index raised. It fails behind
the array. -/
def record (pid : ℤ) (produces : Bool) : Option ProdCons :=
  if produces then
    if s.producerIndex < maxWorkers then some { s with
      producerIndex := s.producerIndex+1
      producerPid := Function.update s.producerPid s.producerIndex pid }
    else none
  else
    if s.consumerIndex < maxWorkers then some { s with
      consumerIndex := s.consumerIndex+1
      consumerPid := Function.update s.consumerPid s.consumerIndex pid }
    else none

def withdraw (produces : Bool) : Option (ℤ × ProdCons) :=
  if produces then
    if 0 < s.producerIndex then some (s.producerPid (s.producerIndex-1),
      { s with producerIndex := s.producerIndex-1 })
    else none
  else
    if 0 < s.consumerIndex then some (s.consumerPid (s.consumerIndex-1),
      { s with consumerIndex := s.consumerIndex-1 })
    else none

def employ (pid : ℤ) (produces : Bool) : ProdCons := { s with
  workers := s.workers++
    [⟨⟨pid,0⟩,produces,if produces then s.producerIndex else s.consumerIndex,0,0,.sleeping⟩] }

def kill (i : ℕ) : ProdCons := { s with
  workers := s.workers.eraseIdx i
  lostEmpty := s.lostEmpty+(w.claims true).toNat+(w.owes false).toNat
  lostProduced := s.lostProduced+(w.claims false).toNat+(w.owes true).toNat
  torn := s.torn+w.takes.toNat
  wedged := s.wedged || w.critical }

/-- A worker whose call has been granted goes with what the call has given it. Its mutex stays
locked, as `removePidFromMutexes` takes its pid for its thread. -/
def killAt (i : ℕ) (granted : Bool) : Option ProdCons := s.workers[i]?.bind (fun w =>
  if granted then
    if w.phase = .waiting ∨ w.phase = .permitted then some (s.kill (w.goTo w.after) i) else none
  else some (s.kill w i))

def victim (produces : Bool) : Option ℕ :=
  (s.withdraw produces).bind (fun x => s.workers.findIdx? (fun w => w.thread = ⟨x.1,0⟩))

def step : ProdConsStep → Option ProdCons
  | .signal => if s.signalled < maxBuffer then some { s with signalled := s.signalled+1 } else none
  | .create pid produces =>
    if s.signalled = maxBuffer ∧ ⟨pid,0⟩ ∉ s.workers.map Worker.thread then
      (s.record pid produces).map (fun s => s.employ pid produces)
    else none
  | .refused ret produces => if s.signalled = maxBuffer then s.record ret produces else none
  | .remove produces granted =>
    let rest := (s.withdraw produces).elim s Prod.snd
    match s.victim produces with
    | some i => rest.killAt i granted
    | none => if granted then none else some rest
  | .statement i => s.workers[i]?.bind (fun w => (s.statement w).map (fun x =>
      { x.1 with workers := s.workers.set i x.2 }))
  | .kill i granted => s.killAt i granted

def grants (i : ℕ) (granted : Bool) : List (ThreadId × Atomic.Operation ℤ ℤ) :=
  (s.workers[i]?.bind (fun w =>
    if granted then (s.operation w).map (fun e => (w.thread,e)) else none)).toList

def shows : ProdConsStep → List (ThreadId × Atomic.Operation ℤ ℤ)
  | .signal => [(s.main,.signal s.emptySem)]
  | .create _ _ => []
  | .refused _ _ => []
  | .remove produces granted => (s.victim produces).elim [] (fun i => s.grants i granted)
  | .statement i => (s.workers[i]?.bind (fun w => (s.operation w).map (fun e => (w.thread,e)))).toList
  | .kill i granted => s.grants i granted

def system : ProdCons × Atomic.Objects ℤ ℤ ThreadId → ProdConsStep →
    Option (ProdCons × Atomic.Objects ℤ ℤ ThreadId) := Runs.drive step Atomic.step shows

variable {s w} {s' : ProdCons} {w' : Worker} {a a' : Atomic.Objects ℤ ℤ ThreadId} {i : ℕ}
  {stock : List UInt8} {l : ProdConsStep}

structure Steady (s s' : ProdCons) (w w' : Worker) : Prop where
  thread : w'.thread = w.thread
  produces : w'.produces = w.produces
  workers : s'.workers = s.workers
  main : s'.main = s.main
  bufferMutex : s'.bufferMutex = s.bufferMutex
  emptySem : s'.emptySem = s.emptySem
  producedSem : s'.producedSem = s.producedSem
  signalled : s'.signalled = s.signalled
  lostEmpty : s'.lostEmpty = s.lostEmpty
  lostProduced : s'.lostProduced = s.lostProduced
  torn : s'.torn = s.torn
  wedged : s'.wedged = s.wedged

structure Moved (s s' : ProdCons) (w w' : Worker) : Prop where
  moves : s'.moves = s.moves++(if w.puts then [.put w.item] else
    if w.takes then [.take (s.buffer s.index)] else [])
  buffer : s'.buffer = if w.puts then Function.update s.buffer s.index w.item else s.buffer
  index : s'.index+w'.takes.toNat = s.index+w.puts.toNat

theorem statement_steady (h : s.statement w = some (s',w')) : Steady s s' w w' := by
  rw [statement] at h
  split at h
  · cases hph : w.phase <;> simp only [producer,hph,Option.some.injEq,Prod.mk.injEq,reduceCtorEq] at h
    case looking =>
      obtain ⟨rfl,rfl⟩ := h
      split <;> constructor <;> rfl
    all_goals
      obtain ⟨rfl,rfl⟩ := h
      constructor <;> rfl
  · cases hph : w.phase <;> simp only [consumer,hph,Option.some.injEq,Prod.mk.injEq] at h
    case looking =>
      obtain ⟨rfl,rfl⟩ := h
      split <;> constructor <;> rfl
    all_goals
      obtain ⟨rfl,rfl⟩ := h
      constructor <;> rfl

theorem statement_moved (h : s.statement w = some (s',w')) : Moved s s' w w' := by
  rw [statement] at h
  split at h
  · rename_i hw
    cases hph : w.phase <;> simp only [producer,hph,Option.some.injEq,Prod.mk.injEq,reduceCtorEq] at h
    case looking =>
      obtain ⟨rfl,rfl⟩ := h
      split <;> constructor <;> simp [Worker.puts,Worker.takes,Worker.goTo,hph,print]
    all_goals
      obtain ⟨rfl,rfl⟩ := h
      constructor <;> simp [Worker.puts,Worker.takes,Worker.goTo,hw,hph,print]
  · rename_i hw
    cases hph : w.phase <;> simp only [consumer,hph,Option.some.injEq,Prod.mk.injEq] at h
    case looking =>
      obtain ⟨rfl,rfl⟩ := h
      split <;> constructor <;> simp [Worker.puts,Worker.takes,Worker.goTo,hph,print]
    all_goals
      obtain ⟨rfl,rfl⟩ := h
      constructor <;> simp [Worker.puts,Worker.takes,Worker.goTo,hw,hph,print]

theorem statement_phase (h : s.statement w = some (s',w')) : w'.phase = w.after := by
  rw [statement] at h
  split at h
  · rename_i hw
    cases hph : w.phase <;> simp only [producer,hph,Option.some.injEq,Prod.mk.injEq,reduceCtorEq] at h
    all_goals
      obtain ⟨-,rfl⟩ := h
      simp [Worker.after,Worker.goTo,hph,hw]
  · rename_i hw
    cases hph : w.phase <;> simp only [consumer,hph,Option.some.injEq,Prod.mk.injEq] at h
    all_goals
      obtain ⟨-,rfl⟩ := h
      simp [Worker.after,Worker.goTo,hph,hw]

/-- Only consumers take two statements. -/
theorem statement_lowered (h : s.statement w = some (s',w')) (hph : w.phase = .lowered) :
    w.produces = false := by
  by_contra hw
  rw [Bool.not_eq_false] at hw
  rw [statement,if_pos hw,producer,hph] at h
  cases h

def Answered (s : ProdCons) (w : Worker) (a a' : Atomic.Objects ℤ ℤ ThreadId) : Prop :=
  Runs.run Atomic.step a ((s.operation w).map (fun e => (w.thread,e))).toList = some a'

structure Paid (s : ProdCons) (w w' : Worker) (a a' : Atomic.Objects ℤ ℤ ThreadId) : Prop where
  empty : a'.permits s.emptySem+(w'.claims true).toNat+(w'.owes false).toNat+w.puts.toNat =
    a.permits s.emptySem+(w.claims true).toNat+(w.owes false).toNat+w.takes.toNat
  produced : a'.permits s.producedSem+(w'.claims false).toNat+(w'.owes true).toNat+w.takes.toNat =
    a.permits s.producedSem+(w.claims false).toNat+(w.owes true).toNat+w.puts.toNat

def Handled (s : ProdCons) (w w' : Worker) (a a' : Atomic.Objects ℤ ℤ ThreadId) : Prop :=
  (a.holder s.bufferMutex = none ∧ a'.holder s.bufferMutex = some w.thread ∧ w'.critical = true) ∨
    (w.critical = true ∧ w'.critical = false ∧ a'.holder s.bufferMutex =
      if a.holder s.bufferMutex = some w.thread then none else a.holder s.bufferMutex) ∨
    (w'.critical = w.critical ∧ a'.holder s.bufferMutex = a.holder s.bufferMutex)

theorem answered_none (h : Answered s w a a') (ho : s.operation w = none) : a' = a := by
  rw [Answered,ho] at h
  exact (Option.some.inj h).symm

theorem answered_some {e : Atomic.Operation ℤ ℤ} (h : Answered s w a a')
    (ho : s.operation w = some e) : Atomic.step a (w.thread,e) = some a' := by
  rw [Answered,ho] at h
  obtain ⟨b,hb,hr⟩ := Runs.run_cons.mp h
  cases hr
  exact hb

theorem statement_paid (hne : s.emptySem ≠ s.producedSem)
    (h : s.statement w = some (s',w')) (ha : Answered s w a a') : Paid s w w' a a' := by
  have hpr := (statement_steady h).produces
  have hph' := statement_phase h
  have hlow := statement_lowered h
  cases hph : w.phase with
  | waiting =>
    obtain ⟨hpos,hp,-⟩ := Atomic.step_wait_some (answered_some ha (by rw [operation,hph]))
    cases hw : w.produces <;> constructor <;>
      simp [Worker.claims,Worker.owes,Worker.puts,Worker.takes,hpr,hph',Worker.after,hph,hw,hp,hne,
        hne.symm] at hpos ⊢
    all_goals omega
  | permitted =>
    obtain ⟨-,hp,-⟩ := Atomic.step_down_some (answered_some ha (by rw [operation,hph]))
    cases hw : w.produces <;> constructor <;>
      simp [Worker.claims,Worker.owes,Worker.puts,Worker.takes,hpr,hph',Worker.after,hph,hw,hp]
  | moved =>
    obtain ⟨hp,-⟩ := Atomic.step_up_some (answered_some ha (by rw [operation,hph]))
    cases hw : w.produces <;> constructor <;>
      simp [Worker.claims,Worker.owes,Worker.puts,Worker.takes,hpr,hph',Worker.after,hph,hw,hp]
  | released =>
    obtain ⟨hp,-⟩ := Atomic.step_signal_some (answered_some ha (by rw [operation,hph]))
    cases hw : w.produces <;> constructor <;>
      simp [Worker.claims,Worker.owes,Worker.puts,Worker.takes,hpr,hph',Worker.after,hph,hw,hp,hne,
        hne.symm]
  | lowered =>
    obtain rfl := answered_none ha (by rw [operation,hph])
    have hw := hlow hph
    constructor <;>
      simp [Worker.claims,Worker.owes,Worker.puts,Worker.takes,hpr,hph',Worker.after,hph,hw]
  | _ =>
    obtain rfl := answered_none ha (by rw [operation,hph])
    cases hw : w.produces <;> constructor <;>
      simp [Worker.claims,Worker.owes,Worker.puts,Worker.takes,hpr,hph',Worker.after,hph,hw]

theorem statement_handled (h : s.statement w = some (s',w')) (ha : Answered s w a a') :
    Handled s w w' a a' := by
  have hph' := statement_phase h
  cases hph : w.phase with
  | waiting =>
    obtain ⟨-,-,hh⟩ := Atomic.step_wait_some (answered_some ha (by rw [operation,hph]))
    exact Or.inr (Or.inr ⟨by simp [Worker.critical,hph',Worker.after,hph],by rw [hh]⟩)
  | permitted =>
    obtain ⟨hno,-,hh⟩ := Atomic.step_down_some (answered_some ha (by rw [operation,hph]))
    exact Or.inl ⟨hno,by simp [hh],by simp [Worker.critical,hph',Worker.after,hph]⟩
  | moved =>
    obtain ⟨-,hh⟩ := Atomic.step_up_some (answered_some ha (by rw [operation,hph]))
    exact Or.inr (Or.inl ⟨by simp [Worker.critical,hph],
      by simp [Worker.critical,hph',Worker.after,hph],hh⟩)
  | released =>
    obtain ⟨-,hh⟩ := Atomic.step_signal_some (answered_some ha (by rw [operation,hph]))
    exact Or.inr (Or.inr ⟨by simp [Worker.critical,hph',Worker.after,hph],by rw [hh]⟩)
  | locked =>
    obtain rfl := answered_none ha (by rw [operation,hph])
    cases hw : w.produces <;>
      exact Or.inr (Or.inr ⟨by simp [Worker.critical,hph',Worker.after,hph,hw],rfl⟩)
  | _ =>
    obtain rfl := answered_none ha (by rw [operation,hph])
    exact Or.inr (Or.inr ⟨by simp [Worker.critical,hph',Worker.after,hph],rfl⟩)

/-- The state of the program, of its counters and its lock, and the items in the buffer, the
top one first. -/
structure Ok (s : ProdCons) (a : Atomic.Objects ℤ ℤ ThreadId) (stock : List UInt8) : Prop where
  apart : s.emptySem ≠ s.producedSem
  threads : (s.workers.map Worker.thread).Nodup
  lowered : ∀ w ∈ s.workers, w.phase = .lowered → w.produces = false
  holder : ∀ w ∈ s.workers, w.critical = true → a.holder s.bufferMutex = some w.thread
  held : s.wedged = false → ∀ t, a.holder s.bufferMutex = some t →
    ∃ w ∈ s.workers, w.critical = true ∧ w.thread = t
  wedged : s.wedged = true → a.holder s.bufferMutex ≠ none ∧ ∀ w ∈ s.workers, w.critical = false
  torn : s.torn ≠ 0 → s.wedged = true
  tornLost : s.torn ≤ s.lostProduced
  signalled : s.signalled ≤ maxBuffer
  empty : a.permits s.emptySem+s.workers.countP (Worker.claims true)+stock.length+
    s.workers.countP (Worker.owes false)+s.lostEmpty = s.signalled
  produced : a.permits s.producedSem+s.workers.countP (Worker.claims false)+
    s.workers.countP (Worker.owes true)+s.lostProduced = stock.length
  index : s.index+s.workers.countP Worker.takes+s.torn = stock.length
  content : ∀ (j : ℕ) b, stock.reverse[j]? = some b → s.buffer j = b
  moves : Runs.run Lifo.step [] s.moves = some stock

theorem Ok.others (h : Ok s a stock) (hi : s.workers[i]? = some w) (hw : w.critical = true) {j : ℕ}
    {v : Worker} (hj : s.workers[j]? = some v) (hij : j ≠ i) : v.critical = false := by
  by_contra hc
  rw [Bool.not_eq_false] at hc
  have hm := h.holder w (List.mem_of_getElem? hi) hw
  rw [h.holder v (List.mem_of_getElem? hj) hc,Option.some.injEq] at hm
  have hi' : (s.workers.map Worker.thread)[i]? = some w.thread := by
    rw [List.getElem?_map,hi,Option.map_some]
  have hj' : (s.workers.map Worker.thread)[j]? = some v.thread := by
    rw [List.getElem?_map,hj,Option.map_some]
  obtain ⟨hlt,-⟩ := List.getElem?_eq_some_iff.mp hj'
  exact hij ((List.getElem?_inj hlt h.threads).mp (by rw [hj',hi',hm]))

/-- Nobody else has lowered `index` while a worker is in its critical section. -/
theorem Ok.takes_alone (h : Ok s a stock) (hi : s.workers[i]? = some w) (hw : w.critical = true) :
    s.workers.countP Worker.takes = w.takes.toNat ∧ s.torn = 0 := by
  have hcount := count_leave (p := Worker.takes) hi
  have hrest : (s.workers.eraseIdx i).countP Worker.takes = 0 := by
    refine List.countP_eq_zero.mpr (fun v hv ht => ?_)
    obtain ⟨j,hij,hj⟩ := List.mem_eraseIdx_iff_getElem?.mp hv
    have hno := h.others hi hw hj hij
    simp only [Worker.takes,decide_eq_true_eq] at ht
    simp [Worker.critical,ht] at hno
  refine ⟨by omega,?_⟩
  by_contra hx
  have hno := (h.wedged (h.torn hx)).2 w (List.mem_of_getElem? hi)
  rw [hw] at hno
  cases hno

/-- Where everyone stands behind a statement of one worker. -/
theorem Ok.holders (h : Ok s a stock) (hi : s.workers[i]? = some w) (hst : Steady s s' w w')
    (hh : Handled s w w' a a') :
    (∀ v ∈ s.workers.set i w', v.critical = true → a'.holder s.bufferMutex = some v.thread) ∧
      (s.wedged = false → ∀ t, a'.holder s.bufferMutex = some t →
        ∃ v ∈ s.workers.set i w', v.critical = true ∧ v.thread = t) ∧
      (s.wedged = true → a'.holder s.bufferMutex ≠ none ∧
        ∀ v ∈ s.workers.set i w', v.critical = false) := by
  have hmem := List.mem_of_getElem? hi
  rcases hh with ⟨hno,hnew,hc⟩ | ⟨hc,hc',hnew⟩ | ⟨hc,hsame⟩
  · have hnobody : ∀ v ∈ s.workers, v.critical = false := by
      intro v hv
      by_contra hx
      rw [Bool.not_eq_false] at hx
      rw [h.holder v hv hx] at hno
      cases hno
    refine ⟨fun v hv hx => ?_,fun _ t ht => ?_,fun hw => absurd hno (h.wedged hw).1⟩
    · rcases mem_set_cases hv with rfl | ⟨j,-,hj⟩
      · rw [hnew,hst.thread]
      · rw [hnobody v (List.mem_of_getElem? hj)] at hx
        cases hx
    · refine ⟨w',mem_set_self hi,hc,?_⟩
      rw [hst.thread]
      exact Option.some.inj (hnew.symm.trans ht)
  · have hheld := h.holder w hmem hc
    rw [if_pos hheld] at hnew
    refine ⟨fun v hv hx => ?_,fun _ t ht => ?_,fun hw => ?_⟩
    · rcases mem_set_cases hv with rfl | ⟨j,hij,hj⟩
      · rw [hc'] at hx
        cases hx
      · rw [h.others hi hc hj hij] at hx
        cases hx
    · rw [hnew] at ht
      cases ht
    · have hno := (h.wedged hw).2 w hmem
      rw [hc] at hno
      cases hno
  · refine ⟨fun v hv hx => ?_,fun hw t ht => ?_,fun hw => ?_⟩
    · rw [hsame]
      rcases mem_set_cases hv with rfl | ⟨j,-,hj⟩
      · rw [hst.thread]
        exact h.holder w hmem (hc ▸ hx)
      · exact h.holder v (List.mem_of_getElem? hj) hx
    · rw [hsame] at ht
      obtain ⟨v,hv,hvc,hvt⟩ := h.held hw t ht
      obtain ⟨j,hj⟩ := List.mem_iff_getElem?.mp hv
      by_cases hij : j = i
      · subst hij
        obtain rfl := Option.some.inj (hi.symm.trans hj)
        exact ⟨w',mem_set_self hi,hc.trans hvc,hst.thread.trans hvt⟩
      · exact ⟨v,mem_set_of_ne hj hij,hvc,hvt⟩
    · obtain ⟨hne,hnobody⟩ := h.wedged hw
      refine ⟨by rw [hsame]; exact hne,fun v hv => ?_⟩
      rcases mem_set_cases hv with rfl | ⟨j,-,hj⟩
      · exact hc.trans (hnobody w hmem)
      · exact hnobody v (List.mem_of_getElem? hj)

/-- What is left to show of a statement is about the items only. -/
theorem Ok.after (h : Ok s a stock) (hi : s.workers[i]? = some w)
    (hs : s.statement w = some (s',w')) (ha : Answered s w a a') {stock' : List UInt8}
    (hlen : stock'.length+w.takes.toNat = stock.length+w.puts.toNat)
    (hcontent : ∀ (j : ℕ) b, stock'.reverse[j]? = some b → s'.buffer j = b)
    (hmoves : Runs.run Lifo.step [] s'.moves = some stock') :
    Ok { s' with workers := s.workers.set i w' } a' stock' := by
  have hst := statement_steady hs
  have hidx := (statement_moved hs).index
  obtain ⟨hE,hP⟩ := statement_paid h.apart hs ha
  obtain ⟨hholder,hheld,hwedged⟩ := h.holders hi hst (statement_handled hs ha)
  have hc := fun p => count_set (p := Worker.claims p) (b := w') hi
  have ho := fun p => count_set (p := Worker.owes p) (b := w') hi
  have ht := count_set (p := Worker.takes) (b := w') hi
  have hempty := h.empty
  have hproduced := h.produced
  have hindex := h.index
  constructor
  · show s'.emptySem ≠ s'.producedSem
    rw [hst.emptySem,hst.producedSem]
    exact h.apart
  · show ((s.workers.set i w').map Worker.thread).Nodup
    rw [map_set_same hi hst.thread]
    exact h.threads
  · intro v hv hx
    rcases mem_set_cases hv with rfl | ⟨j,-,hj⟩
    · -- only a consumer gets there
      rw [hst.produces]
      rw [statement_phase hs] at hx
      cases hph : w.phase <;> cases hw : w.produces <;> simp [Worker.after,hph,hw] at hx ⊢
    · exact h.lowered v (List.mem_of_getElem? hj) hx
  · show ∀ v ∈ s.workers.set i w', v.critical = true → a'.holder s'.bufferMutex = some v.thread
    rw [hst.bufferMutex]
    exact hholder
  · show s'.wedged = false → ∀ t, a'.holder s'.bufferMutex = some t →
      ∃ v ∈ s.workers.set i w', v.critical = true ∧ v.thread = t
    rw [hst.wedged,hst.bufferMutex]
    exact hheld
  · show s'.wedged = true → a'.holder s'.bufferMutex ≠ none ∧
      ∀ v ∈ s.workers.set i w', v.critical = false
    rw [hst.wedged,hst.bufferMutex]
    exact hwedged
  · show s'.torn ≠ 0 → s'.wedged = true
    rw [hst.torn,hst.wedged]
    exact h.torn
  · show s'.torn ≤ s'.lostProduced
    rw [hst.torn,hst.lostProduced]
    exact h.tornLost
  · show s'.signalled ≤ maxBuffer
    rw [hst.signalled]
    exact h.signalled
  · show a'.permits s'.emptySem+(s.workers.set i w').countP (Worker.claims true)+stock'.length+
      (s.workers.set i w').countP (Worker.owes false)+s'.lostEmpty = s'.signalled
    rw [hst.emptySem,hst.lostEmpty,hst.signalled]
    have h1 := hc true
    have h2 := ho false
    omega
  · show a'.permits s'.producedSem+(s.workers.set i w').countP (Worker.claims false)+
      (s.workers.set i w').countP (Worker.owes true)+s'.lostProduced = stock'.length
    rw [hst.producedSem,hst.lostProduced]
    have h1 := hc false
    have h2 := ho true
    omega
  · show s'.index+(s.workers.set i w').countP Worker.takes+s'.torn = stock'.length
    rw [hst.torn]
    omega
  · exact hcontent
  · exact hmoves

/-- The permits leave room for the item that is put, and an item to be taken. -/
theorem Ok.room (h : Ok s a stock) (hi : s.workers[i]? = some w) (hc : w.claims true = true) :
    stock.length < maxBuffer := by
  have hpos := List.countP_pos_iff.mpr ⟨w,List.mem_of_getElem? hi,hc⟩
  have := h.empty
  have := h.signalled
  omega

theorem Ok.item (h : Ok s a stock) (hi : s.workers[i]? = some w) (hc : w.claims false = true) :
    0 < stock.length := by
  have hpos := List.countP_pos_iff.mpr ⟨w,List.mem_of_getElem? hi,hc⟩
  have := h.produced
  omega

theorem Ok.put (h : Ok s a stock) (hi : s.workers[i]? = some w)
    (hs : s.statement w = some (s',w')) (ha : Answered s w a a') (hw : w.puts = true) :
    Ok { s' with workers := s.workers.set i w' } a' (w.item::stock) := by
  obtain ⟨hp,hph⟩ := of_decide_eq_true hw
  have hcrit : w.critical = true := by simp [Worker.critical,hph]
  have htakes : w.takes = false := by simp [Worker.takes,hph]
  obtain ⟨hcount,htorn⟩ := h.takes_alone hi hcrit
  have hindex : s.index = stock.length := by
    have := h.index
    simp only [hcount,htakes,htorn,Bool.toNat_false] at this
    omega
  have hm := statement_moved hs
  refine h.after hi hs ha ?_ (fun j b hj => ?_) ?_
  · simp [hw,htakes]
  · rw [hm.buffer,if_pos hw,hindex]
    rw [List.reverse_cons] at hj
    rcases Nat.lt_or_ge j stock.reverse.length with hlt | hge
    · rw [List.getElem?_append_left hlt] at hj
      rw [Function.update_of_ne (by simp at hlt; omega)]
      exact h.content j b hj
    · rw [List.getElem?_append_right hge,List.getElem?_singleton] at hj
      obtain ⟨hj0,he⟩ := Option.ite_none_right_eq_some.mp hj
      obtain rfl := Option.some.inj he
      obtain rfl : j = stock.length := by simp at hge hj0; omega
      exact Function.update_self _ _ _
  · rw [hm.moves,if_pos hw]
    exact Lifo.run_put h.moves

theorem Ok.take {b : UInt8} {rest : List UInt8} (h : Ok s a (b::rest)) (hi : s.workers[i]? = some w)
    (hs : s.statement w = some (s',w')) (ha : Answered s w a a') (hw : w.takes = true) :
    Ok { s' with workers := s.workers.set i w' } a' rest := by
  have hph := of_decide_eq_true hw
  have hcrit : w.critical = true := by simp [Worker.critical,hph]
  have hputs : w.puts = false := by simp [Worker.puts,hph]
  obtain ⟨hcount,htorn⟩ := h.takes_alone hi hcrit
  have hindex : s.index = rest.length := by
    have := h.index
    simp only [hcount,hw,htorn,Bool.toNat_true,List.length_cons] at this
    omega
  have hm := statement_moved hs
  refine h.after hi hs ha ?_ (fun j c hj => ?_) ?_
  · simp [hw,hputs]
  · rw [hm.buffer,if_neg (by simp [hputs])]
    obtain ⟨hlt,-⟩ := List.getElem?_eq_some_iff.mp hj
    refine h.content j c ?_
    rw [List.reverse_cons,List.getElem?_append_left hlt]
    exact hj
  · have hb : s.buffer s.index = b := by
      rw [hindex]
      exact h.content rest.length b (by simp)
    rw [hm.moves,if_neg (by simp [hputs]),if_pos hw,hb]
    exact Lifo.run_take h.moves

theorem Ok.keep (h : Ok s a stock) (hi : s.workers[i]? = some w)
    (hs : s.statement w = some (s',w')) (ha : Answered s w a a') (hp : w.puts = false)
    (ht : w.takes = false) : Ok { s' with workers := s.workers.set i w' } a' stock := by
  have hm := statement_moved hs
  refine h.after hi hs ha (by simp [hp,ht]) ?_ ?_
  · rw [hm.buffer,if_neg (by simp [hp])]
    exact h.content
  · rw [hm.moves,if_neg (by simp [hp]),if_neg (by simp [ht]),List.append_nil]
    exact h.moves

theorem Ok.statement (h : Ok s a stock) (hi : s.workers[i]? = some w)
    (hs : s.statement w = some (s',w')) (ha : Answered s w a a') :
    ∃ stock', Ok { s' with workers := s.workers.set i w' } a' stock' := by
  cases hp : w.puts with
  | true => exact ⟨_,h.put hi hs ha hp⟩
  | false =>
    cases ht : w.takes with
    | false => exact ⟨_,h.keep hi hs ha hp ht⟩
    | true =>
      have hph := of_decide_eq_true ht
      have hc : w.claims false = true := by
        simp [Worker.claims,hph,h.lowered w (List.mem_of_getElem? hi) hph]
      cases stock with
      | nil => exact absurd (h.item hi hc) (Nat.lt_irrefl 0)
      | cons b rest => exact ⟨rest,h.take hi hs ha ht⟩

def Controls (s s' : ProdCons) : Prop := ∃ pi pp ci cp, s' = { s with
  producerIndex := pi, producerPid := pp, consumerIndex := ci, consumerPid := cp }

theorem record_controls {pid : ℤ} {produces : Bool} (h : s.record pid produces = some s') :
    Controls s s' := by
  rw [record] at h
  split at h <;> obtain ⟨-,h⟩ := Option.ite_none_right_eq_some.mp h <;> cases h <;>
    exact ⟨_,_,_,_,rfl⟩

theorem withdraw_controls (produces : Bool) :
    Controls s ((s.withdraw produces).elim s Prod.snd) := by
  rw [withdraw]
  split <;> split <;> exact ⟨_,_,_,_,rfl⟩

theorem Ok.controls (h : Ok s a stock) (hc : Controls s s') : Ok s' a stock := by
  obtain ⟨pi,pp,ci,cp,rfl⟩ := hc
  exact ⟨h.apart,h.threads,h.lowered,h.holder,h.held,h.wedged,h.torn,h.tornLost,h.signalled,h.empty,
    h.produced,h.index,h.content,h.moves⟩

theorem Ok.create (h : Ok s a stock) {v : Worker} (hv : v.thread ∉ s.workers.map Worker.thread)
    (hph : v.phase = .sleeping) : Ok { s with workers := s.workers++[v] } a stock := by
  have hcount : ∀ {p : Worker → Bool}, p v = false → (s.workers++[v]).countP p = s.workers.countP p := by
    intro p hp
    rw [count_join,hp]
    rfl
  have hc : v.critical = false := by simp [Worker.critical,hph]
  have hmem : ∀ {u : Worker}, u ∈ s.workers++[v] → u ∈ s.workers ∨ u = v := by simp
  constructor
  · exact h.apart
  · show ((s.workers++[v]).map Worker.thread).Nodup
    rw [List.map_append]
    refine List.Nodup.append h.threads (List.nodup_singleton _) ?_
    simpa using hv
  · intro u hu hx
    rcases hmem hu with hu | rfl
    · exact h.lowered u hu hx
    · rw [hph] at hx
      cases hx
  · intro u hu hx
    rcases hmem hu with hu | rfl
    · exact h.holder u hu hx
    · rw [hc] at hx
      cases hx
  · intro hw t ht
    obtain ⟨u,hu,hut⟩ := h.held hw t ht
    exact ⟨u,List.mem_append_left _ hu,hut⟩
  · intro hw
    obtain ⟨hne,hno⟩ := h.wedged hw
    refine ⟨hne,fun u hu => ?_⟩
    rcases hmem hu with hu | rfl
    · exact hno u hu
    · exact hc
  · exact h.torn
  · exact h.tornLost
  · exact h.signalled
  · show a.permits s.emptySem+(s.workers++[v]).countP (Worker.claims true)+stock.length+
      (s.workers++[v]).countP (Worker.owes false)+s.lostEmpty = s.signalled
    rw [hcount (by simp [Worker.claims,hph]),hcount (by simp [Worker.owes,hph])]
    exact h.empty
  · show a.permits s.producedSem+(s.workers++[v]).countP (Worker.claims false)+
      (s.workers++[v]).countP (Worker.owes true)+s.lostProduced = stock.length
    rw [hcount (by simp [Worker.claims,hph]),hcount (by simp [Worker.owes,hph])]
    exact h.produced
  · show s.index+(s.workers++[v]).countP Worker.takes+s.torn = stock.length
    rw [hcount (by simp [Worker.takes,hph])]
    exact h.index
  · exact h.content
  · exact h.moves

theorem Ok.signal (h : Ok s a stock) (hlt : s.signalled < maxBuffer) {t : ThreadId}
    (ha : Atomic.step a (t,.signal s.emptySem) = some a') :
    Ok { s with signalled := s.signalled+1 } a' stock := by
  obtain ⟨hp,hh⟩ := Atomic.step_signal_some ha
  have hempty := h.empty
  refine ⟨h.apart,h.threads,h.lowered,?_,?_,?_,h.torn,h.tornLost,hlt,?_,?_,h.index,h.content,
    h.moves⟩
  · rw [hh]
    exact h.holder
  · rw [hh]
    exact h.held
  · rw [hh]
    exact h.wedged
  · simp only [hp,Function.update_self]
    omega
  · simp only [hp,Function.update_of_ne h.apart.symm]
    exact h.produced

theorem Ok.kill (h : Ok s a stock) (hi : s.workers[i]? = some w) : Ok (s.kill w i) a stock := by
  have hsub := List.eraseIdx_sublist s.workers i
  have hmem := List.mem_of_getElem? hi
  have hc := fun p => count_leave (p := Worker.claims p) hi
  have ho := fun p => count_leave (p := Worker.owes p) hi
  have ht := count_leave (p := Worker.takes) hi
  have hempty := h.empty
  have hproduced := h.produced
  have hindex := h.index
  constructor
  · exact h.apart
  · exact h.threads.sublist (hsub.map _)
  · exact fun v hv => h.lowered v (hsub.subset hv)
  · exact fun v hv hx => h.holder v (hsub.subset hv) hx
  · intro hw t htt
    obtain ⟨hw,hcrit⟩ := Bool.or_eq_false_iff.mp hw
    obtain ⟨v,hv,hvc,hvt⟩ := h.held hw t htt
    refine ⟨v,?_,hvc,hvt⟩
    obtain ⟨j,hj⟩ := List.mem_iff_getElem?.mp hv
    refine List.mem_eraseIdx_iff_getElem?.mpr ⟨j,?_,hj⟩
    rintro rfl
    obtain rfl := Option.some.inj (hi.symm.trans hj)
    rw [hcrit] at hvc
    cases hvc
  · intro hw
    rcases Bool.or_eq_true_iff.mp hw with hw | hcrit
    · obtain ⟨hne,hno⟩ := h.wedged hw
      exact ⟨hne,fun v hv => hno v (hsub.subset hv)⟩
    · refine ⟨?_,fun v hv => ?_⟩
      · show a.holder s.bufferMutex ≠ none
        rw [h.holder w hmem hcrit]
        exact Option.some_ne_none _
      · obtain ⟨j,hij,hj⟩ := List.mem_eraseIdx_iff_getElem?.mp hv
        exact h.others hi hcrit hj hij
  · intro hx
    show (s.wedged || w.critical) = true
    rcases Nat.eq_zero_or_pos s.torn with h0 | hpos
    · have htakes : w.takes = true := by
        by_contra hno
        rw [Bool.not_eq_true] at hno
        exact hx (by simp [ProdCons.kill,h0,hno])
      have hph := of_decide_eq_true htakes
      simp [Worker.critical,hph]
    · rw [h.torn (by omega),Bool.true_or]
  · -- the item goes with the consumer that has lowered `index`
    have htc : w.takes.toNat ≤ (w.claims false).toNat := by
      by_cases htakes : w.takes = true
      · have hph := of_decide_eq_true htakes
        simp [Worker.claims,hph,h.lowered w hmem hph,htakes]
      · simp [htakes]
    have := h.tornLost
    simp only [ProdCons.kill]
    omega
  · exact h.signalled
  · show a.permits s.emptySem+(s.workers.eraseIdx i).countP (Worker.claims true)+stock.length+
      (s.workers.eraseIdx i).countP (Worker.owes false)+(s.lostEmpty+(w.claims true).toNat+
        (w.owes false).toNat) = s.signalled
    have h1 := hc true
    have h2 := ho false
    omega
  · show a.permits s.producedSem+(s.workers.eraseIdx i).countP (Worker.claims false)+
      (s.workers.eraseIdx i).countP (Worker.owes true)+(s.lostProduced+(w.claims false).toNat+
        (w.owes true).toNat) = stock.length
    have h1 := hc false
    have h2 := ho true
    omega
  · show s.index+(s.workers.eraseIdx i).countP Worker.takes+(s.torn+w.takes.toNat : ℕ) = stock.length
    push_cast
    omega
  · exact h.content
  · exact h.moves

/-- Neither call that may be granted does anything else. -/
theorem statement_granted (h : w.phase = .waiting ∨ w.phase = .permitted) :
    s.statement w = some (s,w.goTo w.after) := by
  rw [statement]
  split <;> rcases h with h | h <;> simp only [producer,consumer,Worker.after,h]

theorem killAt_some {granted : Bool} (h : s.killAt i granted = some s') :
    ∃ w v, s.workers[i]? = some w ∧ s' = s.kill v i ∧
      ((granted = false ∧ v = w) ∨ (granted = true ∧ s.statement w = some (s,v))) := by
  obtain ⟨w,hi,h⟩ := Option.bind_eq_some_iff.mp h
  cases granted with
  | false =>
    cases h
    exact ⟨w,w,hi,rfl,Or.inl ⟨rfl,rfl⟩⟩
  | true =>
    obtain ⟨hph,h⟩ := Option.ite_none_right_eq_some.mp h
    cases h
    exact ⟨w,_,hi,rfl,Or.inr ⟨rfl,statement_granted hph⟩⟩

/-- A worker that has been granted its call is killed as if the call had come back. -/
theorem Ok.killAt (h : Ok s a stock) {granted : Bool} (hs : s.killAt i granted = some s')
    (ha : Runs.run Atomic.step a (s.grants i granted) = some a') : ∃ stock, Ok s' a' stock := by
  obtain ⟨w,v,hi,rfl,⟨rfl,rfl⟩ | ⟨rfl,hst⟩⟩ := killAt_some hs
  · rw [grants,hi] at ha
    cases ha
    exact ⟨stock,h.kill hi⟩
  · rw [grants,hi] at ha
    obtain ⟨stock',h'⟩ := h.statement hi hst ha
    have hv : (s.workers.set i v)[i]? = some v := by
      obtain ⟨hlt,-⟩ := List.getElem?_eq_some_iff.mp hi
      exact List.getElem?_set_self hlt
    have hkill := h'.kill hv
    have he : (s.workers.set i v).eraseIdx i = s.workers.eraseIdx i := List.eraseIdx_set_eq
    unfold ProdCons.kill at hkill ⊢
    simp only [he] at hkill
    exact ⟨stock',hkill⟩

theorem step_ok (h : ∃ stock, Ok s a stock) (hs : system (s,a) l = some (s',a')) :
    ∃ stock, Ok s' a' stock := by
  obtain ⟨stock,h⟩ := h
  obtain ⟨hs,ha⟩ := Runs.drive_eq_some.mp hs
  cases l with
  | signal =>
    obtain ⟨hlt,hs⟩ := Option.ite_none_right_eq_some.mp hs
    obtain rfl := Option.some.inj hs
    obtain ⟨b,hb,hr⟩ := Runs.run_cons.mp ha
    obtain rfl := Option.some.inj hr
    exact ⟨stock,h.signal hlt hb⟩
  | create pid produces =>
    obtain ⟨⟨-,hmem⟩,hs⟩ := Option.ite_none_right_eq_some.mp hs
    obtain ⟨s₁,hs₁,rfl⟩ := Option.map_eq_some_iff.mp hs
    obtain rfl := Option.some.inj ha
    have hc := record_controls hs₁
    have h₁ := h.controls hc
    obtain ⟨pi,pp,ci,cp,rfl⟩ := hc
    exact ⟨stock,h₁.create hmem rfl⟩
  | refused ret produces =>
    obtain ⟨-,hrec⟩ := Option.ite_none_right_eq_some.mp hs
    obtain rfl := Option.some.inj ha
    exact ⟨stock,h.controls (record_controls hrec)⟩
  | remove produces granted =>
    have hc : Controls s _ := withdraw_controls produces
    have h₁ := h.controls hc
    simp only [step] at hs
    simp only [shows] at ha
    cases hv : s.victim produces with
    | none =>
      rw [hv] at hs ha
      obtain ⟨-,hrest⟩ := Option.ite_none_left_eq_some.mp hs
      obtain rfl := Option.some.inj ha
      obtain rfl := Option.some.inj hrest
      exact ⟨stock,h₁⟩
    | some i =>
      rw [hv] at hs ha
      obtain ⟨pi,pp,ci,cp,hrest⟩ := hc
      rw [hrest] at hs h₁
      exact h₁.killAt hs ha
  | statement i =>
    obtain ⟨w,hi,hs⟩ := Option.bind_eq_some_iff.mp hs
    obtain ⟨⟨s₁,w'⟩,hst,rfl⟩ := Option.map_eq_some_iff.mp hs
    have ha' : Answered s w a a' := by
      simp only [shows,hi,Option.bind_some] at ha
      exact ha
    exact h.statement hi hst ha'
  | kill i granted => exact h.killAt hs ha

variable {main : ThreadId} {bufferMutex emptySem producedSem : ℤ} {buffer : ℤ → UInt8}
  {ls : List ProdConsStep}

theorem start_ok (hne : emptySem ≠ producedSem) :
    Ok (start main bufferMutex emptySem producedSem buffer) ⟨fun _ => 0,fun _ => none⟩ [] :=
  ⟨hne,List.nodup_nil,by simp [start],by simp [start],by simp,by simp [start],by simp [start],
    le_rfl,Nat.zero_le _,by simp [start],by simp [start],by simp [start],by simp,rfl⟩

theorem run_ok (hne : emptySem ≠ producedSem)
    (hr : Runs.run system (start main bufferMutex emptySem producedSem buffer,
      ⟨fun _ => 0,fun _ => none⟩) ls = some (s,a)) : ∃ stock, Ok s a stock :=
  Runs.invariant (I := fun x => ∃ stock, Ok x.1 x.2 stock) (fun _ _ _ h hs => step_ok h hs)
    ⟨[],start_ok hne⟩ hr

/-- Every access of the program lies inside `buffer`, no two workers are in their critical
sections, and what is moved is moved as over one stack of at most five items, which lie in the
cells of the buffer. -/
structure Law (s : ProdCons) : Prop where
  index : 0 ≤ s.index ∧ s.index ≤ maxBuffer
  locked : ∀ w ∈ s.workers, w.phase = .locked →
    if w.produces then s.index < maxBuffer else 0 < s.index
  lowered : ∀ w ∈ s.workers, w.phase = .lowered → s.index < maxBuffer
  alone : ∀ (i j : ℕ) (v w : Worker), s.workers[i]? = some v → s.workers[j]? = some w →
    v.critical = true → w.critical = true → i = j
  stack : ∃ stock, Runs.run Lifo.step [] s.moves = some stock ∧ stock.length ≤ maxBuffer ∧
    (∀ (j : ℕ) b, stock.reverse[j]? = some b → s.buffer j = b) ∧
    (Lifo.puts s.moves).Perm (Lifo.takes s.moves++stock)

/-- As many items as `index` is short of are in the stock. -/
theorem Ok.lowered_le (h : Ok s a stock) : s.workers.countP Worker.takes+s.torn ≤ stock.length := by
  have hle : s.workers.countP Worker.takes ≤ s.workers.countP (Worker.claims false) := by
    refine List.countP_mono_left (fun w hw ht => ?_)
    have hph := of_decide_eq_true ht
    simp [Worker.claims,hph,h.lowered w hw hph]
  have := h.produced
  have := h.tornLost
  omega

theorem Ok.law (h : Ok s a stock) : s.Law := by
  have hlow := h.lowered_le
  have hindex := h.index
  have hempty := h.empty
  have hsig := h.signalled
  have hbound : stock.length ≤ maxBuffer := by omega
  refine ⟨by omega,fun w hw hph => ?_,fun w hw hph => ?_,fun i j v w hv hw hcv hcw => ?_,
    ⟨stock,h.moves,hbound,h.content,?_⟩⟩
  · obtain ⟨i,hi⟩ := List.mem_iff_getElem?.mp hw
    obtain ⟨hcount,htorn⟩ := h.takes_alone hi (by simp [Worker.critical,hph])
    rw [hcount,htorn,show w.takes = false by simp [Worker.takes,hph]] at hindex
    simp only [Bool.toNat_false] at hindex
    split
    · rename_i hp
      have := h.room hi (by simp [Worker.claims,hp,hph])
      omega
    · rename_i hp
      have := h.item hi (by simp [Worker.claims,hp,hph])
      omega
  · obtain ⟨i,hi⟩ := List.mem_iff_getElem?.mp hw
    obtain ⟨hcount,htorn⟩ := h.takes_alone hi (by simp [Worker.critical,hph])
    rw [hcount,htorn,show w.takes = true by simp [Worker.takes,hph]] at hindex
    simp only [Bool.toNat_true] at hindex
    omega
  · by_contra hij
    have hno := h.others hw hcw hv hij
    rw [hcv] at hno
    cases hno
  · have hperm := Lifo.conserved h.moves
    rwa [List.append_nil] at hperm

end ProdCons
end ComplexOS
