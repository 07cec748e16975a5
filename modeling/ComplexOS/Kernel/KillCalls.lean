import ComplexOS.Kernel.Reachable
import ComplexOS.Kernel.System
import ComplexOS.Ipc.ChannelCalls

/-! # Calls that clean up

What is left behind by a process or a thread is looked for in all slots of both tables, under
the locks of the tables and in the name of the victim. Channels and pipes are taken down by
their own calls.
-/
namespace ComplexOS
open Call

namespace Registry
variable (v : Victim) (t : ThreadId)

def releaseOwnedMutex (i : ℤ) : KernelCall Unit := do
  let s ← get
  if v.Covers (s.kernel.mutexes i).creator then
    let _ ← releaseMutex t.pid i t.thread

/-- A mutex that the victim holds. The pid of the holder is passed on as its thread. -/
def upHeldMutex (i : ℤ) : KernelCall Unit := do
  let s ← get
  if v.Covers (s.kernel.mutexes i).lockProcess then
    mutexUp i ⟨v.pid,(s.kernel.mutexes i).lockProcess.pid⟩

def removeBlockedFromMutex (i : ℤ) (j : ℕ) : KernelCall Unit :=
  piece (fun k => k.removeBlockedFromMutex v i j)

/-- One round of the loop of `removePidFromMutexes` and `removeThreadFromMutexes`. -/
def sweepMutex (i : ℕ) : KernelCall Unit := do
  releaseOwnedMutex v t i
  upHeldMutex v i
  (List.range maxBlocked).forM (removeBlockedFromMutex v i)

def removeFromMutexes : KernelCall Unit := do
  mutexDown adminMutex t
  (List.range maxMutexes.toNat).forM (sweepMutex v t)
  mutexUp adminMutex t

def releaseOwnedSemaphore (i : ℤ) : KernelCall Unit := do
  let s ← get
  if v.Covers (s.kernel.semaphores i).creator then
    let _ ← releaseSemaphore t.pid i t.thread

def removeBlockedFromSemaphore (i : ℤ) (j : ℕ) : KernelCall Unit :=
  piece (fun k => k.removeBlockedFromSemaphore v i j)

def sweepSemaphore (i : ℕ) : KernelCall Unit := do
  releaseOwnedSemaphore v t i
  (List.range maxBlocked).forM (removeBlockedFromSemaphore v i)

def removeFromSemaphores : KernelCall Unit := do
  let s ← get
  mutexDown s.semaphoreMutex t
  (List.range maxSemaphores.toNat).forM (sweepSemaphore v t)
  mutexUp s.semaphoreMutex t

/-! No process has the pid `NOT_USED`. -/

def removePidFromMutexes (pid thread : ℤ) (h : pid ≠ notUsed) : KernelCall Unit :=
  removeFromMutexes ⟨pid,none,h⟩ ⟨pid,thread⟩

def removeThreadFromMutexes (pid thread : ℤ) (h : pid ≠ notUsed) : KernelCall Unit :=
  removeFromMutexes ⟨pid,some thread,h⟩ ⟨pid,thread⟩

def removePidFromSemaphores (pid thread : ℤ) (h : pid ≠ notUsed) : KernelCall Unit :=
  removeFromSemaphores ⟨pid,none,h⟩ ⟨pid,thread⟩

def removeThreadFromSemaphores (pid thread : ℤ) (h : pid ≠ notUsed) : KernelCall Unit :=
  removeFromSemaphores ⟨pid,some thread,h⟩ ⟨pid,thread⟩

/-- The part of `killProcess` for a process in the foreground. A parent that is gone is looked
for in front of the table. -/
def leaveForeground (pid : ℤ) : KernelCall Unit := do
  let s ← get
  match s.foreground with
  | none => stop .fails
  | some foreground =>
    if foreground = pid then
      match s.kernel.heir pid with
      | none => stop .fails
      | some t =>
        modify (fun s => { s with foreground := some t.pid })
        piece (fun k => k.changeThreadState t .ready)

def deleteThread (thread : Thread) : KernelCall Unit := do
  let _ ← freeMemory thread.memoryBase

/-- `killThreads`, and the process itself. -/
def deleteProcess (process : Process) : KernelCall Unit := do
  (List.range maxThreads.toNat).forM (fun i => match process.threads i with
    | none => pure ()
    | some thread => deleteThread thread)
  let _ ← freeMemory process.address

/-- The switch after the end of the running process is left out. -/
def removeProcess (pid : ℤ) : KernelCall Unit := do
  let s ← get
  match s.kernel.processes pid with
  | none => pure ()
  | some process =>
    deleteProcess process
    modify (fun s => { s with kernel := s.kernel.removeProcess pid })

def currentThread (pid : ℤ) (s : Registry) : ℤ := Processes.getCurrentThread s.kernel.processes pid

/-- The last lines of `killProcess`. -/
def cleanUp (pid : ℤ) (h : pid ≠ notUsed) : KernelCall Unit := do
  let s ← get
  removePidFromMutexes pid (s.currentThread pid) h
  let s ← get
  removePidFromSemaphores pid (s.currentThread pid) h
  removeProcess pid

def killProcess (pid : ℤ) (h : pid ≠ notUsed) : KernelCall Unit := do
  let s ← get
  match s.kernel.processes pid with
  | none => pure ()
  | some process =>
    modify (fun s => { s with kernel := s.kernel.changeChildrenToOrphan pid process.ppid })
    leaveForeground pid
    cleanUp pid h

/-- What the search of `removeChannelFromList` makes of the list: behind the first node it is
unlinked, and with the first node all of them are lost. -/
def unlinkChannel (channel : ChannelNode) (channels : List ChannelNode) :
    Option (ChannelNode × List ChannelNode) :=
  match channels.span (fun node =>
      ¬ node.channelBelongsToPids channel.senderPid channel.recipientPid) with
  | (_,[]) => none
  | ([],current::_) => some (current,[])
  | (previous,current::next) => some (current,previous++next)

def deleteMessages (messages : List (ℕ × ℕ)) : KernelCall Unit :=
  messages.forM (fun m => do
    let _ ← freeMemory m.1
    let _ ← freeMemory m.2)

/-- The body of `deleteChannel` behind its own `removeChannelFromList`. The semaphores are
released as by a first thread. -/
def releaseChannel (channel : ChannelNode) : KernelCall Unit := do
  deleteMessages channel.messages
  let _ ← releaseSemaphore channel.senderPid channel.senderReceiveSem 0
  let _ ← releaseSemaphore channel.recipientPid channel.recipientReceiveSem 0
  let _ ← releaseSemaphore channel.senderPid channel.senderSendSem 0
  let _ ← releaseSemaphore channel.recipientPid channel.recipientReceiveSem 0
  let _ ← freeMemory channel.address

/-- `removeChannelFromList` calls `deleteChannel`, which calls it again. Every round takes a
node out of the list, so that there are no more rounds than nodes. -/
def removeChannelFromList : ℕ → ChannelNode → KernelCall Unit
  | 0, _ => stop .fails
  | n+1, channel => do
    let s ← get
    mutexDown s.channelMutex s.kernel.caller
    match unlinkChannel channel (← get).channels with
    | none => pure ()
    | some (current,rest) =>
      modify (fun s => { s with channels := rest })
      removeChannelFromList n current
      releaseChannel current
    mutexUp s.channelMutex s.kernel.caller

def sysDeleteChannel (recipientPid : ℤ) : KernelCall Unit := do
  let s ← get
  match s.getChannelFromList recipientPid s.kernel.getpid with
  | none => pure ()
  | some channel => removeChannelFromList (s.channels.length+1) channel

def maxPipes : ℤ := 10

def isValidPipe (pipe : ℤ) (s : Registry) : Prop :=
  0 ≤ pipe ∧ pipe < maxPipes ∧ (s.pipes pipe.toNat).used

instance (pipe : ℤ) (s : Registry) : Decidable (isValidPipe pipe s) :=
  inferInstanceAs (Decidable (_ ∧ _ ∧ _))

def deletePipe (pipe pid thread : ℤ) : KernelCall ℤ := do
  let s ← get
  let p := s.pipes pipe.toNat
  if s.isValidPipe pipe ∧ p.creator = ⟨pid,thread⟩ then
    let _ ← freeMemory p.buffer
    let _ ← releaseMutex p.creator.pid p.mutex p.creator.thread
    let _ ← releaseSemaphore p.creator.pid p.semWrite p.creator.thread
    let _ ← releaseSemaphore p.creator.pid p.semRead p.creator.thread
    modify (fun s => { s with pipes := Function.update s.pipes pipe.toNat { p with used := false } })
    pure 0
  else pure (-1)

def sysClosePipe (pipe : ℤ) : KernelCall ℤ := do
  let s ← get
  deletePipe pipe s.kernel.getpid s.kernel.getCurrentThread

end Registry
end ComplexOS
