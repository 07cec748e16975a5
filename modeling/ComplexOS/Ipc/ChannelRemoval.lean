import ComplexOS.Kernel.SelfDeadlock

/-! # Removal of a channel

`removeChannelFromList` calls `deleteChannel` under `channelMutex`, and `deleteChannel` calls
`removeChannelFromList` before it does anything else. The inner call asks for the same lock
in the name of the same thread.
-/
namespace ComplexOS
open Kernel Call

namespace ChannelNode
variable (channel : ChannelNode)

def blocks : List ℕ := channel.messages.flatMap (fun m => [m.1,m.2])++[channel.address]

def semaphores : List ℤ := [channel.senderSendSem,channel.recipientSendSem,
  channel.senderReceiveSem,channel.recipientReceiveSem]

end ChannelNode

namespace Registry
variable (channel : ChannelNode) (recipientPid : ℤ) (s s' : Registry)

def freesAll : List ℕ → BuddyAllocator.Heap → Option BuddyAllocator.Heap
  | [], h => some h
  | a::as, h => (BuddyAllocator.freeMemory a h).bind (fun x => if x.1 then freesAll as x.2 else none)

structure Removed : Prop where
  channels : ∃ previous next, s.channels = previous++channel::next ∧ s'.channels = previous++next
  blocks : ∃ order, order.Perm channel.blocks ∧ freesAll order s.heap = some s'.heap
  released : ∀ i ∈ channel.semaphores, (s.kernel.semaphores i).creator.pid ≠ notUsed ∧
    (s'.kernel.semaphores i).creator.pid = notUsed
  usedSemaphores : s'.usedSemaphores = s.usedSemaphores-4

/-- `removeChannelFromList` once the lock is there. -/
def removeLocked (n : ℕ) (mutex : ℤ) (t : ThreadId) : KernelCall Unit := do
  match unlinkChannel channel (← get).channels with
  | none => pure ()
  | some (current,rest) =>
    modify (fun s => { s with channels := rest })
    removeChannelFromList n current
    releaseChannel current
  mutexUp mutex t

/-- A call that found the lock taken goes on when the lock has been handed to it. -/
structure Resumes : Prop where
  waited : (s.kernel.mutexes s.channelMutex).value = locked
  sane : s'.Sane
  caller : s'.kernel.caller = s.kernel.caller
  channels : s'.channels = s.channels
  held : (s'.kernel.mutexes s'.channelMutex).value = locked ∧
    (s'.kernel.mutexes s'.channelMutex).lockProcess = s.kernel.caller

/-- `sysDeleteChannel` comes back, at once or after it was given the lock, and the channel
is removed. -/
def Deletes : Prop :=
  (∃ s', sysDeleteChannel recipientPid s = .ok ((),s') ∧ Removed channel s s') ∨
    ∃ node s₁ s', s.getChannelFromList recipientPid s.kernel.getpid = some node ∧ Resumes s s₁ ∧
      removeLocked node s.channels.length s.channelMutex s.kernel.caller s₁ = .ok ((),s') ∧
      Removed channel s₁ s'

variable {channel recipientPid s s'} {node : ChannelNode} {n : ℕ} {mutex : ℤ} {t u : ThreadId}

theorem removeChannelFromList_eq : removeChannelFromList (n+1) channel = (do
    let s ← get
    mutexDown s.channelMutex s.kernel.caller
    removeLocked channel n s.channelMutex s.kernel.caller) := rfl

/-- Whoever holds the lock and finds the channel asks for the lock once more. -/
theorem removeLocked_waits (hg : s.kernel.Guarded) (hc : s.channelMutex = 2)
    (hl : (s.kernel.mutexes 2).value = locked) (hx : (unlinkChannel channel s.channels).isSome) :
    removeLocked channel (n+1) mutex t s =
      .error (.waits 2 s.kernel.caller (s.kernel.mutexes 2).lockProcess) := by
  obtain ⟨⟨current,rest⟩,hx⟩ := Option.isSome_iff_exists.mp hx
  have hdown : mutexDown s.channelMutex s.kernel.caller { s with channels := rest } =
      .error (.waits 2 s.kernel.caller (s.kernel.mutexes 2).lockProcess) := by
    rw [congrArg (fun m => mutexDown m s.kernel.caller) hc]
    exact mutexDown_waits (s := { s with channels := rest }) (hg.valid (by decide) le_rfl) hl
  have hagain : removeChannelFromList (n+1) current { s with channels := rest } =
      .error (.waits 2 s.kernel.caller (s.kernel.mutexes 2).lockProcess) := by
    rw [removeChannelFromList_eq,get_bind]
    exact bind_of_error hdown
  unfold removeLocked
  rw [get_bind]
  simp only [hx,modify_bind]
  exact bind_of_error hagain

/-- With a channel to remove the call waits for the lock, which it holds itself if the lock
was open. -/
theorem sysDeleteChannel_waits (h : s.Sane)
    (hnode : s.getChannelFromList recipientPid s.kernel.getpid = some node) :
    sysDeleteChannel recipientPid s = .error (.waits 2 s.kernel.caller
      (if (s.kernel.mutexes 2).value = locked then (s.kernel.mutexes 2).lockProcess
        else s.kernel.caller)) := by
  have hmem : node ∈ s.channels := List.mem_of_find?_eq_some hnode
  obtain ⟨n,hn⟩ := Nat.exists_eq_succ_of_ne_zero (List.length_pos_of_mem hmem).ne'
  unfold sysDeleteChannel
  rw [get_bind,hnode]
  simp only [hn]
  split
  · rename_i hl
    rw [removeChannelFromList_eq,get_bind]
    apply bind_of_error
    rw [congrArg (fun m => mutexDown m s.kernel.caller) h.channelMutex]
    exact mutexDown_waits (h.guarded.valid (by decide) le_rfl) hl
  · rename_i hopen
    exact removeChannelFromList_waits h.guarded h.channelMutex hopen hmem

/-- A channel of the list is never removed, whichever of its processes asks. -/
theorem channel_removal (h : s.Reachable) (hc : channel ∈ s.channels)
    (hp : channel.channelBelongsToPids s.kernel.getpid recipientPid) :
    ¬ Deletes channel recipientPid s := by
  have hs := h.sane
  obtain ⟨node,hnode⟩ : ∃ node, s.getChannelFromList recipientPid s.kernel.getpid = some node := by
    apply Option.isSome_iff_exists.mp
    unfold getChannelFromList
    rw [List.find?_isSome]
    exact ⟨channel,hc,decide_eq_true hp⟩
  have hmem : node ∈ s.channels := List.mem_of_find?_eq_some hnode
  rintro (⟨s',hx,-⟩ | ⟨node',s₁,s',hx,hr,hy,-⟩)
  · rw [sysDeleteChannel_waits hs hnode] at hx
    cases hx
  · obtain rfl : node = node' := Option.some.inj (hnode.symm.trans hx)
    obtain ⟨n,hn⟩ := Nat.exists_eq_succ_of_ne_zero (List.length_pos_of_mem hmem).ne'
    have hl := hr.held.1
    rw [hr.sane.channelMutex] at hl
    rw [hn,removeLocked_waits hr.sane.guarded hr.sane.channelMutex hl
      (by rw [hr.channels]; exact unlinkChannel_isSome hmem)] at hy
    cases hy

def firstChannel : ChannelNode := ⟨1,2,0,1,2,3,[],0⟩

def withChannel (s : Registry) : Registry :=
  { s with
    kernel := { s.kernel with
      processes := Processes.twoThreads
      current := 1
      semaphores := fun i => ⟨⟨1,0⟩,fun _ => 0,BlockedList.empty,if i ≤ 1 then 9 else 0,i+3⟩ }
    channels := [firstChannel] }

theorem withChannel_reachable (hm : main static = .ok ((),s)) : (withChannel s).Reachable := by
  refine ⟨s,[.table (.other (withChannel s).kernel),.rest (withChannel s)],hm,?_⟩
  rfl

/-- Process `1` asks for its channel to be removed. -/
theorem channel_removal_first : ∃ s : Registry, s.Reachable ∧ firstChannel ∈ s.channels ∧
    ¬ Deletes firstChannel 2 s := by
  obtain ⟨s,hm,-⟩ := main_booted
  exact ⟨withChannel s,withChannel_reachable hm,List.mem_singleton_self _,
    channel_removal (withChannel_reachable hm) (List.mem_singleton_self _) (Or.inl ⟨rfl,rfl⟩)⟩

theorem channel_removal_fails : ¬ ∀ (s : Registry) (channel : ChannelNode) (recipientPid : ℤ),
    s.Reachable → channel ∈ s.channels →
    channel.channelBelongsToPids s.kernel.getpid recipientPid → Deletes channel recipientPid s := by
  intro hall
  obtain ⟨s,hm,hb⟩ := main_booted
  have hs := withChannel_reachable hm
  have hmem : firstChannel ∈ (withChannel s).channels := List.mem_singleton_self _
  have hdeletes := hall _ _ 2 hs hmem (Or.inl ⟨rfl,rfl⟩)
  obtain ⟨s',hx,-⟩ | ⟨node,s₁,s',-,hr,-⟩ := hdeletes
  · have hnode : (withChannel s).getChannelFromList 2 (withChannel s).kernel.getpid =
        some firstChannel := rfl
    rw [sysDeleteChannel_waits hs.sane hnode] at hx
    cases hx
  · have hl := hr.waited
    rw [hs.sane.channelMutex] at hl
    exact hb.open_mutex (i := 2) (by decide) hl

end Registry
end ComplexOS
