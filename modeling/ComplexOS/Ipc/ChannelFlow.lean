import ComplexOS.Kernel.SemaphoreRuns
import ComplexOS.Kernel.Registry

/-! # Flow control of a channel

`sendMessage` and `receiveMessage` with everything that they do to the four semaphores
of their channel. Which semaphore a call takes or gives depends on the process that
makes it. A switch may fall between any two of the kernel calls.
-/
namespace ComplexOS

inductive Transfer
  | send | receive
  deriving DecidableEq, Repr

/-- `lockSend` and `lockReceive` come first, `unlockReceive` and `unlockSend` afterwards. -/
inductive Half
  | lock | unlock
  deriving DecidableEq, Repr

def Transfer.other : Transfer → Transfer
  | send => receive
  | receive => send

namespace ChannelNode
variable (channel : ChannelNode) (pid : ℤ)

def lockSend : ℤ :=
  if channel.senderPid = pid then channel.senderSendSem else channel.recipientSendSem

def unlockReceive : ℤ :=
  if channel.senderPid = pid then channel.recipientReceiveSem else channel.senderReceiveSem

def lockReceive : ℤ :=
  if channel.recipientPid = pid then channel.recipientReceiveSem else channel.senderReceiveSem

def unlockSend : ℤ :=
  if channel.recipientPid = pid then channel.senderSendSem else channel.recipientSendSem

def semaphore : Transfer → Half → ℤ
  | .send, .lock => channel.lockSend pid
  | .send, .unlock => channel.unlockReceive pid
  | .receive, .lock => channel.lockReceive pid
  | .receive, .unlock => channel.unlockSend pid

def direction : Transfer → Bool
  | .send => decide (channel.senderPid = pid)
  | .receive => decide (channel.recipientPid = pid)

def permits : Transfer → Bool → ℤ
  | .send, d => if d then channel.senderSendSem else channel.recipientSendSem
  | .receive, d => if d then channel.recipientReceiveSem else channel.senderReceiveSem

end ChannelNode

/-- Where a thread is: BLOCKED on the mutex of a semaphore, between the two calls on that
mutex before or after the body, queued on the semaphore, or between its two halves. -/
inductive FlowPhase
  | outside
  | enter (op : Transfer) (h : Half)
  | body (op : Transfer) (h : Half)
  | leave (op : Transfer) (h : Half)
  | leaveQueued (op : Transfer)
  | asleep (op : Transfer)
  | between (op : Transfer)
  | leaveKilled (op : Transfer)
  | killed
  deriving DecidableEq, Repr

def FlowPhase.op? : FlowPhase → Option Transfer
  | .enter op _ | .body op _ | .leave op _ | .leaveQueued op | .asleep op | .between op
  | .leaveKilled op => some op
  | .outside | .killed => none

inductive FlowStep
  | call (op : Transfer)
  | proceed
  | resume
  | body
  | mutexUp
  | dispatch (t : ThreadId)
  deriving DecidableEq, Repr

/-- `pastLock` counts the calls that have returned from their first half, `pastUnlock`
those that have given their permit in the second one. -/
structure ChannelFlow where
  kernel : Kernel
  phase : ThreadId → FlowPhase
  /-- The threads on the list of a mutex, and of a semaphore. -/
  parked : ℤ → Finset ThreadId
  waiting : ℤ → Finset ThreadId
  pastLock : Transfer → Bool → ℕ
  pastUnlock : Transfer → Bool → ℕ
  /-- Threads that found a full list: in a wait, and on the way to their signal. -/
  killedWaiting : Transfer → Bool → ℕ
  killedBetween : Transfer → Bool → ℕ

namespace ChannelFlow
variable (channel : ChannelNode) (s : ChannelFlow)

def start (k : Kernel) : ChannelFlow where
  kernel := k
  phase _ := .outside
  parked _ := ∅
  waiting _ := ∅
  pastLock _ _ := 0
  pastUnlock _ _ := 0
  killedWaiting _ _ := 0
  killedBetween _ _ := 0

def caller : ThreadId := s.kernel.caller

def bump (f : Transfer → Bool → ℕ) (op : Transfer) (d : Bool) : Transfer → Bool → ℕ :=
  fun op' d' => if op' = op ∧ d' = d then f op' d'+1 else f op' d'

def goTo (p : FlowPhase) (k : Kernel) : ChannelFlow :=
  { s with phase := Function.update s.phase s.caller p, kernel := k }

def target (op : Transfer) (h : Half) : ℤ := channel.semaphore s.caller.pid op h
def targetMutex (op : Transfer) (h : Half) : ℤ :=
  (s.kernel.semaphores (s.target channel op h)).mutex

def direction (op : Transfer) : Bool := channel.direction s.caller.pid op

def passLock (op : Transfer) (k : Kernel) : ChannelFlow :=
  { s.goTo (.between op) k with pastLock := bump s.pastLock op (s.direction channel op) }

def passUnlock (op : Transfer) (p : FlowPhase) (k : Kernel) : ChannelFlow :=
  { s.goTo p k with pastUnlock := bump s.pastUnlock op (s.direction channel op) }

/-- `wait` and `signal` up to the body. On an invalid semaphore they return at once. -/
def enter (op : Transfer) (h : Half) : Option ChannelFlow :=
  if s.kernel.isValidSemaphore (s.target channel op h) then
    (s.kernel.mutexDown (s.targetMutex channel op h) s.caller).map (fun x =>
      match x.1 with
      | .returned => s.goTo (.body op h) x.2
      | .queued => { s.goTo (.enter op h) x.2 with
          parked := Function.update s.parked (s.targetMutex channel op h)
            (insert s.caller (s.parked (s.targetMutex channel op h))) }
      | .full => { s.goTo .killed x.2 with
          killedBetween := if h = .unlock then bump s.killedBetween op (s.direction channel op)
            else s.killedBetween })
  else some (if h = .lock then s.passLock channel op s.kernel
    else s.passUnlock channel op .outside s.kernel)

/-- The body of `wait`. -/
def waitStep (op : Transfer) : Option ChannelFlow :=
  (s.kernel.waitBody (s.target channel op .lock) s.caller).map (fun x =>
    match x.1 with
    | .returned => s.goTo (.leave op .lock) x.2
    | .queued => { s.goTo (.leaveQueued op) x.2 with
        waiting := Function.update s.waiting (s.target channel op .lock)
          (insert s.caller (s.waiting (s.target channel op .lock))) }
    | .full => { s.goTo (.leaveKilled op) x.2 with
        killedWaiting := bump s.killedWaiting op (s.direction channel op) })

/-- The body of `signal`. -/
def signalStep (op : Transfer) : Option ChannelFlow :=
  (s.kernel.signalBody (s.target channel op .unlock)).map (fun k =>
    { s.passUnlock channel op (.leave op .unlock) k with
      waiting := Function.update s.waiting (s.target channel op .unlock)
        (s.waiting (s.target channel op .unlock) \
          woken s.kernel k (s.waiting (s.target channel op .unlock))) })

/-- The final `mutexUp` of a call, with what comes after it. -/
def leaveStep (op : Transfer) (h : Half) (after : Kernel → ChannelFlow) : Option ChannelFlow :=
  (s.kernel.mutexUp (s.targetMutex channel op h) s.caller).map (fun k =>
    { after k with
      parked := Function.update s.parked (s.targetMutex channel op h)
        (s.parked (s.targetMutex channel op h) \
          woken s.kernel k (s.parked (s.targetMutex channel op h))) })

def step : FlowStep → Option ChannelFlow
  | .call op =>
    if Processes.Real s.kernel.processes s.caller ∧ s.phase s.caller = .outside ∧
        (s.caller.pid = channel.senderPid ∨ s.caller.pid = channel.recipientPid) then
      s.enter channel op .lock
    else none
  | .proceed =>
    if Processes.Real s.kernel.processes s.caller then
      match s.phase s.caller with
      | .between op => s.enter channel op .unlock
      | _ => none
    else none
  | .resume =>
    if s.kernel.threadState s.caller = some .running then
      match s.phase s.caller with
      | .enter op h => some (s.goTo (.body op h) s.kernel)
      | .asleep op => some (s.passLock channel op s.kernel)
      | _ => none
    else none
  | .body =>
    if Processes.Real s.kernel.processes s.caller then
      match s.phase s.caller with
      | .body op .lock => s.waitStep channel op
      | .body op .unlock => s.signalStep channel op
      | _ => none
    else none
  | .mutexUp =>
    if Processes.Real s.kernel.processes s.caller then
      match s.phase s.caller with
      | .leave op .lock => s.leaveStep channel op .lock (s.passLock channel op)
      | .leave op .unlock => s.leaveStep channel op .unlock (s.goTo .outside)
      | .leaveQueued op => s.leaveStep channel op .lock (s.goTo (.asleep op))
      | .leaveKilled op => s.leaveStep channel op .lock (s.goTo .killed)
      | _ => none
    else none
  | .dispatch t =>
    if s.kernel.threadState t = some .ready ∧ s.phase t ≠ .killed then
      some { s with kernel := s.kernel.dispatch t }
    else none

def doing : FlowStep → Option Transfer
  | .call op => some op
  | .dispatch _ => none
  | _ => (s.phase s.caller).op?

end ChannelFlow
end ComplexOS
