import ComplexOS.Kernel.MutexTable
import ComplexOS.Kernel.Semaphore
import ComplexOS.Heap.BuddyAllocator
import ComplexOS.Library.Calls

/-! # Calls that create and release

`mutex.c` and `semaphore.c` once more, with every call run to its end. System calls come
through interrupt gates, so nothing else happens until a call comes back or has to wait.
-/
namespace ComplexOS
open BuddyAllocator (Heap)

inductive Stop
  /-- `mutexDown` by `t` has met a LOCKED mutex that `holder` is on record for. -/
  | waits (mutex : ℤ) (t holder : ThreadId)
  /-- A loop without end, or a step through a NULL pointer. -/
  | fails
  deriving DecidableEq

/-- `MUTEX_CREATION_ERROR` and `SEM_CREATION_ERROR`. -/
def mutexCreationError : ℤ := -2
def semCreationError : ℤ := -2

def bytes (name : String) : List UInt8 := name.toList.map Char.toUInt8

def InSemaphores (i : ℤ) : Prop := 0 ≤ i ∧ i < maxSemaphores

instance (i : ℤ) : Decidable (InSemaphores i) := inferInstanceAs (Decidable (_ ∧ _))

structure ChannelNode where
  senderPid : ℤ
  recipientPid : ℤ
  senderSendSem : ℤ
  recipientSendSem : ℤ
  senderReceiveSem : ℤ
  recipientReceiveSem : ℤ
  /-- The messages of both lists, as the addresses of `content` and of the node. -/
  messages : List (ℕ × ℕ)
  address : ℕ

structure PipeEntry where
  creator : ThreadId
  name : ℕ → UInt8
  readIndex : ℕ
  writeIndex : ℕ
  buffer : ℕ
  semWrite : ℤ
  semRead : ℤ
  mutex : ℤ
  used : Bool

structure Registry where
  kernel : Kernel
  firstAvailableSemaphore : ℤ
  usedSemaphores : ℤ
  semaphoreMutex : ℤ
  buddyMutex : ℤ
  heap : Heap
  channelMutex : ℤ
  /-- The nodes from `firstChannel` on. -/
  channels : List ChannelNode
  pipes : ℕ → PipeEntry
  /-- The pid of `foreground`, NULL before there is one. -/
  foreground : Option ℤ

abbrev KernelCall := Call Registry Stop

namespace Semaphore

def clear (s : Semaphore) : Semaphore :=
  { s with
    creator := { s.creator with pid := notUsed }
    name := Function.update s.name 0 0
    list := ⟨fun i => if i < maxBlocked then ThreadId.unused else s.list.blocked i,0⟩
    value := 0 }

end Semaphore

namespace Kernel
variable (k : Kernel) (semaphore : ℤ) (name : List UInt8)

/-- The loop of `getSemaphore`. -/
def findSemaphore : Option ℤ :=
  (SlotTable.firstUsed (fun s : Semaphore => strcmp s.name name = 0 ∧ s.creator.pid ≠ notUsed)
    maxSemaphores.toNat (fun i => k.semaphores i)).map Int.ofNat

def getNextSemaphoreAvailable : ℤ :=
  ((SlotTable.firstFree (fun s : Semaphore => s.creator.pid ≠ notUsed) maxSemaphores.toNat
    (fun i => k.semaphores i)).map Int.ofNat).getD fullList

/-- The loop at the end of `releaseSemaphore`: it wakes from the mutex of the same index,
so the count it looks at never changes. -/
def unlockAllSemaphore : ℕ → Kernel → Option Kernel
  | n, k =>
    if (k.semaphores semaphore).list.blockedQuantity > 0 then
      match n with
      | 0 => none
      | n+1 => (k.unlockProcess semaphore).bind (fun x => unlockAllSemaphore n x.2)
    else some k

end Kernel

namespace Registry
open Kernel Call
variable (mutex semaphore : ℤ) (t : ThreadId)

def piece (g : Kernel → Option Kernel) : KernelCall Unit :=
  partly .fails (fun s => (g s.kernel).map (fun k => ((),{ s with kernel := k })))

def mutexDown : KernelCall Unit := fun s =>
  match s.kernel.mutexDown mutex t with
  | some (.returned,k) => .ok ((),{ s with kernel := k })
  | _ => .error (.waits mutex t (s.kernel.mutexes mutex).lockProcess)

def mutexUp : KernelCall Unit := piece (fun k => k.mutexUp mutex t)

/-- `MUTEX_CREATION_ERROR` is `none`. -/
def createMutex (pid : ℤ) (name : List UInt8) (thread : ℤ) : KernelCall (Option ℤ) := fun s =>
  let x := s.kernel.createMutex pid name thread
  .ok (x.1,{ s with kernel := x.2 })

def getMutex (name : List UInt8) (pid thread : ℤ) : KernelCall (Option ℤ) := do
  mutexDown adminMutex ⟨pid,thread⟩
  let s ← get
  match s.kernel.findMutex name with
  | some i => pure (some i)
  | none =>
    let mutex ← createMutex pid name thread
    mutexUp adminMutex ⟨pid,thread⟩
    pure mutex

def releaseMutexBody : KernelCall Bool :=
  partly .fails (fun s => (s.kernel.releaseMutexBody mutex t).map
    (fun x => (x.1,{ s with kernel := x.2 })))

def releaseMutex (pid mutex thread : ℤ) : KernelCall Bool := do
  mutexDown adminMutex ⟨pid,thread⟩
  let released ← releaseMutexBody mutex ⟨pid,thread⟩
  mutexUp adminMutex ⟨pid,thread⟩
  pure released

/-- The name and the creator are written before it is known whether there is a mutex. -/
def claimSemaphore (pid : ℤ) (name : List UInt8) (thread : ℤ) (s : Registry) : Registry :=
  let x := s.kernel.semaphores s.firstAvailableSemaphore
  { s with kernel := s.kernel.setSemaphore s.firstAvailableSemaphore { x with
      name := fun i => name.getD i (x.name i)
      creator := ⟨pid,thread⟩ } }

/-- The last lines of `createSemaphore`. -/
def completeSemaphore (mutex : ℤ) (s : Registry) : Registry :=
  let semaphore := s.firstAvailableSemaphore
  let k := s.kernel.setSemaphore semaphore { s.kernel.semaphores semaphore with mutex := mutex }
  { s with
    kernel := k
    usedSemaphores := s.usedSemaphores+1
    firstAvailableSemaphore := k.getNextSemaphoreAvailable }

/-- `SEM_CREATION_ERROR` is `none`. -/
def createSemaphore (pid : ℤ) (name : List UInt8) (thread : ℤ) : KernelCall (Option ℤ) := do
  let s ← get
  if s.usedSemaphores < maxSemaphores ∧ name.length < maxName then
    modify (claimSemaphore pid name thread)
    match ← getMutex name pid thread with
    | none => pure none
    | some mutex =>
      modify (completeSemaphore mutex)
      pure (some s.firstAvailableSemaphore)
  else pure none

def getSemaphore (name : List UInt8) (pid thread : ℤ) : KernelCall (Option ℤ) := do
  let s ← get
  mutexDown s.semaphoreMutex ⟨pid,thread⟩
  let s ← get
  match s.kernel.findSemaphore name with
  | some i => pure (some i)
  | none =>
    let semaphore ← createSemaphore pid name thread
    mutexUp s.semaphoreMutex ⟨pid,thread⟩
    pure semaphore

/-- `releaseSemaphore` between its two mutex calls. -/
def releaseSemaphoreBody : KernelCall Bool := do
  let s ← get
  if s.kernel.isValidSemaphore semaphore ∧ (s.kernel.semaphores semaphore).creator = t then
    let _ ← releaseMutex t.pid (s.kernel.semaphores semaphore).mutex t.thread
    modify (fun s => { s with kernel := s.kernel.disownSemaphore semaphore })
    piece (unlockAllSemaphore semaphore maxBlocked)
    pure true
  else pure false

def releaseSemaphore (pid semaphore thread : ℤ) : KernelCall Bool := do
  let s ← get
  mutexDown s.semaphoreMutex ⟨pid,thread⟩
  let released ← releaseSemaphoreBody semaphore ⟨pid,thread⟩
  mutexUp s.semaphoreMutex ⟨pid,thread⟩
  pure released

def writeValue (value : ℤ) (s : Registry) : Registry :=
  { s with kernel := s.kernel.setSemaphore semaphore { s.kernel.semaphores semaphore with
      value := value } }

/-- The caller is the running thread. -/
def setValue (value : ℤ) : KernelCall Unit := do
  let s ← get
  if s.kernel.isValidSemaphore semaphore then
    mutexDown (s.kernel.semaphores semaphore).mutex s.kernel.caller
    modify (writeValue semaphore value)
    mutexUp (s.kernel.semaphores semaphore).mutex s.kernel.caller

def allocatePages (pages : ℤ) : KernelCall ℕ := do
  if pages = 0 ∨ pages > BuddyAllocator.pageQuantity then pure BuddyAllocator.null
  else
    let s ← get
    mutexDown s.buddyMutex s.kernel.caller
    let address ← partly .fails (fun s => (BuddyAllocator.getPages pages s.heap).map
      (fun x => (x.1,{ s with heap := x.2 })))
    mutexUp s.buddyMutex s.kernel.caller
    pure address

/-- Whether the page is allocated is looked up before the lock is taken. -/
def freeMemory (memoryBase : ℕ) : KernelCall Bool := do
  let s ← get
  match BuddyAllocator.isAllocatedPage s.heap memoryBase with
  | none => stop .fails
  | some false => pure false
  | some true =>
    mutexDown s.buddyMutex s.kernel.caller
    let _ ← partly .fails (fun s => (BuddyAllocator.freeMemory memoryBase s.heap).map
      (fun x => (x.1,{ s with heap := x.2 })))
    mutexUp s.buddyMutex s.kernel.caller
    pure true

def clearSemaphore (semaphore : ℤ) (s : Registry) : Registry :=
  if semaphore < maxSemaphores then
    let k := s.kernel.setSemaphore semaphore (s.kernel.semaphores semaphore).clear
    if semaphore < s.firstAvailableSemaphore then
      { s with kernel := k, firstAvailableSemaphore := semaphore }
    else { s with kernel := k, firstAvailableSemaphore := k.getNextSemaphoreAvailable }
  else s

def static : Registry where
  kernel := Kernel.static
  firstAvailableSemaphore := 0
  usedSemaphores := 0
  semaphoreMutex := 0
  buddyMutex := 0
  heap := BuddyAllocator.initializeHeap
  channelMutex := 0
  channels := []
  pipes := fun _ => ⟨⟨0,0⟩,fun _ => 0,0,0,0,0,0,0,false⟩
  foreground := none

/-- What `main` does up to `startSystem`. -/
def main : KernelCall Unit := do
  modify (fun s => { s with kernel := s.kernel.setupMutexSystem })
  let buddyMutex ← createMutex 0 (bytes "_BUDDY_MUTEX_") 0
  modify (fun s => { s with buddyMutex := buddyMutex.getD mutexCreationError })
  let _ ← allocatePages 1
  modify (fun s => (List.range maxSemaphores.toNat).foldl (fun s (i : ℕ) => clearSemaphore i s) s)
  let semaphoreMutex ← createMutex 0 (bytes "_SEM_MUTEX_") 0
  modify (fun s => { s with semaphoreMutex := semaphoreMutex.getD mutexCreationError })
  let channelMutex ← createMutex 0 (bytes "_CHANNEL_MUTEX_") 0
  modify (fun s => { s with channelMutex := channelMutex.getD mutexCreationError })

end Registry
end ComplexOS
