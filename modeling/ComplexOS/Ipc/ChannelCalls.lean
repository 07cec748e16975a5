import ComplexOS.Kernel.Registry
import ComplexOS.Ipc.Channel
import Mathlib.Data.Nat.Digits.Defs

/-! # Creating and deleting channels

The calls of `channels.c` that take `channelMutex`. A channel has four semaphores, named
after the two processes.
-/
namespace ComplexOS
open Call

/-- `NULL` for `pagesToAllocate` of `0` bytes, too: no page at all. -/
def pagesToAllocate (bytes : ℕ) : ℕ :=
  if bytes % BuddyAllocator.pageSize = 0 then bytes / BuddyAllocator.pageSize
  else bytes / BuddyAllocator.pageSize + 1

def channelNodeSize : ℕ := 48

def digit (remainder : ℕ) : UInt8 :=
  if remainder < 10 then UInt8.ofNat (remainder+48) else UInt8.ofNat (remainder+65-10)

/-- The digits from the first one on. The loop runs once for `0`, too. -/
def uintToBase (value base : ℕ) : List UInt8 :=
  ((if value = 0 then [0] else Nat.digits base value).map digit).reverse

def toUInt64 (pid : ℤ) : ℕ := (pid % 2^64).toNat

def generateChannelMutexName (senderPid recipientPid : ℤ) (send : Bool) : List UInt8 :=
  bytes (if send then "chS" else "chR") ++ uintToBase (toUInt64 senderPid) 10 ++
    bytes ";" ++ uintToBase (toUInt64 recipientPid) 10

namespace ChannelNode

def channelBelongsToPids (channel : ChannelNode) (pid1 pid2 : ℤ) : Prop :=
  channel.senderPid = pid1 ∧ channel.recipientPid = pid2 ∨
    channel.recipientPid = pid1 ∧ channel.senderPid = pid2

instance (channel : ChannelNode) (pid1 pid2 : ℤ) :
    Decidable (channel.channelBelongsToPids pid1 pid2) :=
  inferInstanceAs (Decidable (_ ∧ _ ∨ _ ∧ _))

end ChannelNode

namespace Registry
variable (s : Registry) (senderPid recipientPid : ℤ)

def getChannelFromList (recipientPid senderPid : ℤ) : Option ChannelNode :=
  s.channels.find? (fun node => node.channelBelongsToPids senderPid recipientPid)

def allocateMemory (bytes : ℕ) : KernelCall ℕ := allocatePages (pagesToAllocate bytes)

def addChannelToList (newChannel : ChannelNode) (s : Registry) : Registry :=
  { s with channels := s.channels ++ [newChannel] }

/-- The last lines of `createChannel` for a new node. -/
def linkChannel (address : ℕ) (senderSendSem recipientSendSem senderReceiveSem recipientReceiveSem : ℤ) :
    KernelCall Unit := do
  setValue senderSendSem (maxMessages-1 : ℕ)
  setValue recipientSendSem (maxMessages-1 : ℕ)
  modify (addChannelToList ⟨senderPid,recipientPid,senderSendSem,recipientSendSem,senderReceiveSem,
    recipientReceiveSem,[],address⟩)

/-- `createChannel` once it has a page for the node. -/
def fillChannel (address : ℕ) : KernelCall Unit := do
  let senderSendSem ← createSemaphore senderPid
    (generateChannelMutexName senderPid recipientPid true) 0
  let recipientSendSem ← createSemaphore senderPid
    (generateChannelMutexName recipientPid senderPid true) 0
  let senderReceiveSem ← createSemaphore senderPid
    (generateChannelMutexName senderPid recipientPid false) 0
  let recipientReceiveSem ← createSemaphore senderPid
    (generateChannelMutexName recipientPid senderPid false) 0
  linkChannel senderPid recipientPid address (senderSendSem.getD semCreationError)
    (recipientSendSem.getD semCreationError) (senderReceiveSem.getD semCreationError)
    (recipientReceiveSem.getD semCreationError)

/-- `createChannel` behind the search. -/
def newChannel (t : ThreadId) : KernelCall ℕ := do
  let s ← get
  let address ← allocateMemory channelNodeSize
  (if address = BuddyAllocator.null then pure () else fillChannel senderPid recipientPid address)
  mutexUp s.channelMutex t
  pure address

def createChannel : KernelCall ℕ := do
  let s ← get
  mutexDown s.channelMutex ⟨senderPid,s.kernel.getCurrentThread⟩
  match (← get).getChannelFromList senderPid recipientPid with
  | some node => pure node.address
  | none => newChannel senderPid recipientPid ⟨senderPid,s.kernel.getCurrentThread⟩

end Registry
end ComplexOS
