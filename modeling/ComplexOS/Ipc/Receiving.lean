import ComplexOS.Heap.HeapEntries
import ComplexOS.Ipc.Channel
import ComplexOS.Modules.MemoryCopy

/-! # What a receiver is given

`receiveMessage` and `sysReceive` over the bytes of memory. The first copy takes as much of
the message as it has, the second as many bytes as were asked for. Each byte that reaches
the buffer is followed back to the place where it was before the call.
-/
namespace ComplexOS
open BuddyAllocator ByteMemory ModuleLoader

/-! ### Free pages -/

def BuddyAllocator.RunState.FreePage (s : RunState) (p : ℕ) : Prop :=
  p < pageQuantity ∧ ∀ b ∈ s.live, ¬ (b.address ≤ base+p*pageSize ∧ base+p*pageSize < b.address+b.bytes)

def BuddyAllocator.RunState.OnFreePage (s : RunState) (a : ℕ) : Prop :=
  base ≤ a ∧ s.FreePage ((a-base)/pageSize)

instance (s : RunState) (p : ℕ) : Decidable (s.FreePage p) := inferInstanceAs (Decidable (_ ∧ _))
instance (s : RunState) (a : ℕ) : Decidable (s.OnFreePage a) := inferInstanceAs (Decidable (_ ∧ _))

/-! ### The call -/

/-- Page `k` of the arena, counted from `1` on. -/
def pageAddress (k : ℕ) : ℕ := base+(k-1)*pageSize

def messageLength (memory : ℕ → UInt8) (message : ℕ) : ℤ := toInt (readWord memory message)

def messageContent (memory : ℕ → UInt8) (message : ℕ) : ℕ :=
  readWord memory (message+8)+2^32*readWord memory (message+12)

structure ReceiverState where
  memory : ℕ → UInt8
  blocks : RunState
  channels : List Channel
  /-- `getpid()`. -/
  pid : ℤ

/-- What a call leaves. The heap is `none` if a release has looked outside its arrays. -/
structure ReceiveOutcome where
  result : ℕ
  memory : ℕ → UInt8
  heap : Option Heap
  channel : Option Channel

namespace ReceiverState
variable (k : ReceiverState) (recipientPid senderPid : ℤ)

def getChannelFromList (recipientPid senderPid : ℤ) : Option Channel :=
  k.channels.find? (fun node => node.channelBelongsToPids senderPid recipientPid)

/-- The head of the list it reads, NULL included: the pop works on a local copy. -/
def getNextMessageForPid (channel : Channel) (pid : ℤ) : ℕ :=
  if pid = channel.recipientPid then channel.senderToRecipient else channel.recipientToSender

def deleteMessage (memory : ℕ → UInt8) (start : ℕ) (h : Heap) : Option Heap :=
  (freeMemory (messageContent memory start) h).bind (fun (_,h) =>
    (freeMemory start h).map Prod.snd)

/-- `none` while the call has no message to go on with, and for a copy of a negative size. -/
def receiveMessage (pid length : ℤ) : Option ReceiveOutcome :=
  let recipientPid := k.pid
  match k.getChannelFromList recipientPid pid with
  | none => some ⟨null,k.memory,some k.blocks.heap,none⟩
  | some channel => (channel.lockReceive recipientPid).bind (fun channel =>
    if getNextMessageForPid channel recipientPid = 0 then none
    else
      let message := pageAddress (getNextMessageForPid channel recipientPid)
      let resultLength := if length > messageLength k.memory message then
        messageLength k.memory message else length
      (k.blocks.heap.allocateMemory (length % 2^64).toNat).bind (fun (result,heap) =>
        if resultLength < 0 then none
        else
          let memory := memcpy k.memory result (messageContent k.memory message) resultLength.toNat
          some ⟨result,memory,deleteMessage memory message heap,
            some (channel.unlockSend recipientPid)⟩))

def sysReceive (senderPid : ℤ) (buffer length : ℕ) : Option (ℤ × ReceiveOutcome) :=
  (k.receiveMessage senderPid (toInt length)).map (fun r =>
    if r.result ≠ null then
      (0,{ r with
        memory := memcpy r.memory buffer r.result length
        heap := r.heap.bind (fun h => (freeMemory r.result h).map Prod.snd) })
    else (-1,r))

/-- The bytes in the receiver's buffer, if it is told that there are some. -/
def received (senderPid : ℤ) (buffer length : ℕ) : Option (List UInt8) :=
  (k.sysReceive senderPid buffer length).bind (fun (answer,r) =>
    if answer = 0 then some ((List.range length).map (fun i => r.memory (buffer+i))) else none)

structure SameUsed (k k' : ReceiverState) : Prop where
  blocks : k'.blocks = k.blocks
  channels : k'.channels = k.channels
  pid : k'.pid = k.pid
  memory : ∀ a, ¬ k.blocks.OnFreePage a → k'.memory a = k.memory a

def target (length : ℕ) : ℕ := ((k.blocks.heap.allocateMemory length).map Prod.fst).getD null

/-- The place that byte `i` of the buffer comes from: in the second copy a byte of the result,
in the first one a byte of the message, unless it is behind the message's length. -/
def source (message buffer length i : ℕ) : ℕ :=
  let result := k.target length
  let place := origin buffer result i
  let filled := min (messageLength k.memory message) length
  if result ≤ place ∧ place < result+filled.toNat then
    origin result (messageContent k.memory message) (place-result)
  else place

variable {k k' : ReceiverState} {senderPid : ℤ} {page message buffer length i j a n : ℕ} {v : UInt8}

/-! ### What reaches the buffer -/

def Receives (k : ReceiverState) (senderPid : ℤ) (page : ℕ) : Prop :=
  ∃ c c', k.getChannelFromList k.pid senderPid = some c ∧ c.lockReceive k.pid = some c' ∧
    getNextMessageForPid c' k.pid = page ∧ page ≠ 0

theorem toInt_length (h : length ≤ pageSize*pageQuantity) : toInt length = length := by
  simp only [pageSize,pageQuantity_eq] at h
  unfold toInt Int.bmod
  dsimp only
  split_ifs <;> omega

theorem toNat_length (h : length ≤ pageSize*pageQuantity) : ((length:ℤ) % 2^64).toNat = length := by
  simp only [pageSize,pageQuantity_eq] at h
  omega

/-- The first copy takes what the message has of the bytes that are asked for. -/
theorem receiveMessage_eq (h : k.Receives senderPid page) (hle : length ≤ pageSize*pageQuantity) :
    ∃ channel, k.receiveMessage senderPid length =
      (k.blocks.heap.allocateMemory length).bind (fun x =>
        if min (messageLength k.memory (pageAddress page)) length < 0 then none
        else
          let memory := copied k.memory x.1 (messageContent k.memory (pageAddress page))
            (min (messageLength k.memory (pageAddress page)) length).toNat
          some ⟨x.1,memory,deleteMessage memory (pageAddress page) x.2,channel⟩) := by
  obtain ⟨c,c',hc,hlock,hpage,hne⟩ := h
  have hmin : ∀ l : ℤ, (if (length:ℤ) > l then l else length) = min l length := by
    intro l
    split_ifs <;> omega
  refine ⟨some (c'.unlockSend k.pid),?_⟩
  unfold receiveMessage
  dsimp only
  rw [hc]
  dsimp only
  rw [hlock,Option.bind_some,hpage,if_neg hne,toNat_length hle,hmin]
  simp only [memcpy_eq]

/-- Every byte is the one that its place has held before the call. -/
theorem received_eq (h : k.Receives senderPid page) (hle : length ≤ pageSize*pageQuantity) :
    k.received senderPid buffer length =
      if k.target length = null ∨ messageLength k.memory (pageAddress page) < 0 then none
      else some ((List.range length).map
        (fun i => k.memory (k.source (pageAddress page) buffer length i))) := by
  obtain ⟨channel,hcall⟩ := receiveMessage_eq h hle
  unfold received sysReceive target
  rw [toInt_length hle,hcall]
  cases he : k.blocks.heap.allocateMemory length with
  | none =>
    have hnull : (Option.map Prod.fst (none : Option (ℕ × Heap))).getD null = null := rfl
    rw [Option.bind_none,Option.map_none,Option.bind_none,if_pos (Or.inl hnull)]
  | some x =>
    rw [Option.bind_some,Option.map_some,Option.getD_some]
    by_cases hneg : messageLength k.memory (pageAddress page) < 0
    · have hless : min (messageLength k.memory (pageAddress page)) (length:ℤ) < 0 := by omega
      rw [if_pos hless,if_pos (Or.inr hneg),Option.map_none,Option.bind_none]
    have hless : ¬ min (messageLength k.memory (pageAddress page)) (length:ℤ) < 0 := by omega
    rw [if_neg hless]
    dsimp only
    rw [Option.map_some,Option.bind_some]
    by_cases hnull : x.1 = null
    · have hanswer : ¬ (-1:ℤ) = 0 := by omega
      rw [if_neg (not_not.mpr hnull),if_pos (Or.inl hnull),if_neg hanswer]
    have hgo : ¬ (x.1 = null ∨ messageLength k.memory (pageAddress page) < 0) := by
      rintro (h | h)
      · exact hnull h
      · exact hneg h
    rw [if_pos hnull,if_neg hgo,if_pos rfl]
    apply congrArg some
    apply List.map_congr_left
    intro i hi
    dsimp only
    rw [memcpy_eq,copied_at (List.mem_range.mp hi)]
    unfold source target
    rw [he,Option.map_some,Option.getD_some]
    unfold copied
    dsimp only
    split_ifs <;> rfl

/-- Away from the result, the bytes of the message come from its content, and the bytes behind
its length from the block that the heap gave. -/
theorem source_plain (hi : i < length) (hbuffer : buffer+length ≤ k.target length ∨
      k.target length+length ≤ buffer)
    (hcontent : messageContent k.memory message+length ≤ k.target length ∨
      k.target length+length ≤ messageContent k.memory message) :
    k.source message buffer length i = if (i:ℤ) < messageLength k.memory message then
      messageContent k.memory message+i else k.target length+i := by
  have hplace : origin buffer (k.target length) i = k.target length+i := origin_eq (by omega)
  have horigin : origin (k.target length) (messageContent k.memory message) i =
      messageContent k.memory message+i := origin_eq (by omega)
  unfold source
  dsimp only
  rw [hplace,Nat.add_sub_cancel_left,horigin]
  exact if_congr (by omega) rfl rfl

/-! ### Two states -/

theorem onFreePage_page (hpos : 0 < page) (hj : j < 4096) :
    k.blocks.OnFreePage (pageAddress page+j) ↔ k.blocks.OnFreePage (pageAddress page) := by
  unfold RunState.OnFreePage pageAddress
  simp only [pageSize]
  have h1 : (base+(page-1)*0x1000+j-base)/0x1000 = page-1 := by omega
  have h2 : (base+(page-1)*0x1000-base)/0x1000 = page-1 := by omega
  rw [h1,h2]
  simp only [show base ≤ base+(page-1)*0x1000+j by omega,show base ≤ base+(page-1)*0x1000 by omega]

/-- A node in use is the same in both states, and so is every place that bytes come from. -/
theorem SameUsed.node (h : k.SameUsed k') (hpos : 0 < page)
    (hused : ¬ k.blocks.OnFreePage (pageAddress page)) :
    messageLength k'.memory (pageAddress page) = messageLength k.memory (pageAddress page) ∧
      messageContent k'.memory (pageAddress page) = messageContent k.memory (pageAddress page) := by
  have hbyte : ∀ j < 4096, k'.memory (pageAddress page+j) = k.memory (pageAddress page+j) :=
    fun j hj => h.memory _ (mt (onFreePage_page hpos hj).mp hused)
  have hword : ∀ j < 4093, readWord k'.memory (pageAddress page+j) =
      readWord k.memory (pageAddress page+j) := by
    intro j hj
    unfold readWord
    rw [hbyte j (by omega)]
    simp only [Nat.add_assoc]
    rw [hbyte (j+1) (by omega),hbyte (j+2) (by omega),hbyte (j+3) (by omega)]
  constructor
  · exact congrArg toInt (hword 0 (by omega))
  · unfold messageContent
    rw [hword 8 (by omega),hword 12 (by omega)]

theorem SameUsed.target (h : k.SameUsed k') : k'.target length = k.target length := by
  unfold ReceiverState.target
  rw [h.blocks]

theorem SameUsed.receives (h : k.SameUsed k') (hr : k.Receives senderPid page) :
    k'.Receives senderPid page := by
  unfold Receives getChannelFromList at hr ⊢
  rw [h.channels,h.pid]
  exact hr

theorem SameUsed.source (h : k.SameUsed k') (hpos : 0 < page)
    (hused : ¬ k.blocks.OnFreePage (pageAddress page)) :
    k'.source (pageAddress page) buffer length i = k.source (pageAddress page) buffer length i := by
  obtain ⟨hlength,hcontent⟩ := h.node hpos hused
  unfold ReceiverState.source
  rw [h.target,hlength,hcontent]

/-- Any contents may lie on a free page. -/
theorem sameUsed_memory {memory : ℕ → UInt8}
    (h : ∀ a, ¬ k.blocks.OnFreePage a → memory a = k.memory a) :
    k.SameUsed { k with memory := memory } := ⟨rfl,rfl,rfl,h⟩

/-- A message of length `1` on a page, with its content behind the node. -/
def planted (k : ReceiverState) (page : ℕ) (v : UInt8) : ReceiverState :=
  { k with memory := place k.memory (pageAddress page) (wordBytes 1++(wordBytes 0++
      (wordBytes (pageAddress page+24)++(wordBytes 0++(wordBytes 0++(wordBytes 0++[v])))))) }

theorem planted_node (hle : page ≤ pageQuantity) :
    messageLength (k.planted page v).memory (pageAddress page) = 1 ∧
      messageContent (k.planted page v).memory (pageAddress page) = pageAddress page+24 ∧
        (k.planted page v).memory (pageAddress page+24) = v := by
  have hp : pageAddress page+24 < 2^32 := by
    unfold pageAddress base
    simp only [pageQuantity_eq,pageSize] at *
    omega
  have h : Placed (k.planted page v).memory (pageAddress page) (wordBytes 1++(wordBytes 0++
      (wordBytes (pageAddress page+24)++(wordBytes 0++(wordBytes 0++(wordBytes 0++[v])))))) :=
    placed_place
  obtain ⟨hlength,h⟩ := placed_append.mp h
  obtain ⟨-,h⟩ := placed_append.mp h
  obtain ⟨hlow,h⟩ := placed_append.mp h
  obtain ⟨hhigh,h⟩ := placed_append.mp h
  obtain ⟨-,h⟩ := placed_append.mp h
  obtain ⟨-,h⟩ := placed_append.mp h
  have hlow : Placed (k.planted page v).memory (pageAddress page+8)
    (wordBytes (pageAddress page+24)) := hlow
  have hhigh : Placed (k.planted page v).memory (pageAddress page+12) (wordBytes 0) := hhigh
  refine ⟨?_,?_,h 0 v rfl⟩
  · unfold messageLength
    rw [readWord_placed hlength (by omega)]
    rfl
  · unfold messageContent
    rw [readWord_placed hlow hp,readWord_placed hhigh (by omega),Nat.mul_zero,Nat.add_zero]

theorem planted_sameUsed (hpos : 0 < page) (hfree : k.blocks.OnFreePage (pageAddress page)) :
    k.SameUsed (k.planted page v) := by
  apply sameUsed_memory
  intro a ha
  apply place_outside
  rintro ⟨hle,hlt⟩
  obtain ⟨j,rfl⟩ := Nat.exists_eq_add_of_le hle
  simp only [List.length_append,wordBytes,List.length_cons,List.length_nil] at hlt
  exact ha ((onFreePage_page hpos (by omega)).mpr hfree)

/-- The first byte of the planted message arrives. -/
theorem planted_received (h : k.Receives senderPid page) (hle : page ≤ pageQuantity)
    (hpos : 0 < page) (hfree : k.blocks.OnFreePage (pageAddress page)) (hlength : 1 ≤ length)
    (hmax : length ≤ pageSize*pageQuantity) (htarget : k.target length ≠ null) :
    ∃ bs, (k.planted page v).received senderPid buffer length = some (v::bs) := by
  have hsame : k.SameUsed (k.planted page v) := planted_sameUsed hpos hfree
  obtain ⟨hnode,hcontent,hbyte⟩ := planted_node (k := k) (v := v) hle
  obtain ⟨n,rfl⟩ := Nat.exists_eq_succ_of_ne_zero (Nat.one_le_iff_ne_zero.mp hlength)
  rw [received_eq (hsame.receives h) hmax,hsame.target,if_neg (by rw [hnode]; omega),
    List.range_succ_eq_map,List.map_cons]
  have hsource : (k.planted page v).source (pageAddress page) buffer (n+1) 0 = pageAddress page+24 := by
    have hmin : (min 1 ((n+1 : ℕ) : ℤ)).toNat = 1 := by omega
    unfold ReceiverState.source
    dsimp only
    rw [hsame.target,hnode,hcontent,hmin]
    simp only [origin_zero,Nat.sub_self,le_refl,true_and,Nat.lt_add_one,if_true]
  rw [hsource,hbyte]
  exact ⟨_,rfl⟩

/-- What the receiver is given is the same whatever lies on free pages exactly if there is no
block for the result, or the message is still in use and no byte of the buffer has had its
place on a free page. -/
theorem stale_memory (h : k.Receives senderPid page) (hle : page ≤ pageQuantity)
    (hlength : 1 ≤ length) (hmax : length ≤ pageSize*pageQuantity) (buffer : ℕ) :
    (∀ k', k.SameUsed k' → k'.received senderPid buffer length = k.received senderPid buffer length) ↔
      k.target length = null ∨ ¬ k.blocks.OnFreePage (pageAddress page) ∧
        (messageLength k.memory (pageAddress page) < 0 ∨
          ∀ i < length, ¬ k.blocks.OnFreePage (k.source (pageAddress page) buffer length i)) := by
  have hpos : 0 < page := by
    obtain ⟨-,-,-,-,-,hne⟩ := h
    exact Nat.pos_of_ne_zero hne
  constructor
  · intro hsame
    by_cases htarget : k.target length = null
    · exact Or.inl htarget
    have hused : ¬ k.blocks.OnFreePage (pageAddress page) := by
      intro hfree
      obtain ⟨bs,hzero⟩ : ∃ bs, (k.planted page 0).received senderPid buffer length = some (0::bs) :=
        planted_received h hle hpos hfree hlength hmax htarget
      obtain ⟨bs',hone⟩ : ∃ bs, (k.planted page 1).received senderPid buffer length = some (1::bs) :=
        planted_received h hle hpos hfree hlength hmax htarget
      rw [hsame _ (planted_sameUsed hpos hfree)] at hzero hone
      have hbyte := Option.some.inj (hzero.symm.trans hone)
      cases hbyte
    refine Or.inr ⟨hused,?_⟩
    by_cases hneg : messageLength k.memory (pageAddress page) < 0
    · exact Or.inl hneg
    refine Or.inr (fun i hi hfree => ?_)
    generalize hx : k.source (pageAddress page) buffer length i = x at hfree
    have hchanged : k.SameUsed { k with memory := Function.update k.memory x (k.memory x+1) } := by
      apply sameUsed_memory
      rintro a ha
      apply Function.update_of_ne
      rintro rfl
      exact ha hfree
    have heq := hsame _ hchanged
    obtain ⟨hnode,-⟩ := hchanged.node hpos hused
    have hstop : ¬ (k.target length = null ∨ messageLength k.memory (pageAddress page) < 0) := by
      rintro (h | h)
      · exact htarget h
      · exact hneg h
    rw [received_eq (hchanged.receives h) hmax,received_eq h hmax,hchanged.target,hnode,if_neg hstop,
      if_neg hstop] at heq
    have hbyte := List.map_inj_left.mp (Option.some.inj heq) i (List.mem_range.mpr hi)
    rw [hchanged.source hpos hused,hx] at hbyte
    change Function.update k.memory x (k.memory x+1) x = k.memory x at hbyte
    rw [Function.update_self] at hbyte
    simp at hbyte
  · intro hcond k' hk'
    rw [received_eq (hk'.receives h) hmax,received_eq h hmax,hk'.target]
    rcases hcond with htarget | ⟨hused,hplaces⟩
    · rw [if_pos (Or.inl htarget),if_pos (Or.inl htarget)]
    · obtain ⟨hnode,-⟩ := hk'.node hpos hused
      rw [hnode]
      split_ifs with hstop
      · rfl
      have hfresh := hplaces.resolve_left (fun h => hstop (Or.inr h))
      apply congrArg some
      apply List.map_congr_left
      intro i hi
      rw [hk'.source hpos hused]
      exact hk'.memory _ (hfresh i (List.mem_range.mp hi))

/-! ### Three bytes on their way -/

/-- Process 1 has sent three bytes to process 2. -/
def threeBytes : ReceiverState where
  memory := place (place (fun _ => 0) 0x600000
    (wordBytes 3++(wordBytes 0++(wordBytes 0x601000++wordBytes 0)))) 0x601000 [65,66,67]
  blocks := (performAll [.allocateMemory 24,.allocateMemory 3] initialRun).getD initialRun
  channels := [{ Channel.createChannel 1 2 with
    senderSendSem := 8
    recipientReceiveSem := 1
    senderToRecipient := 1 }]
  pid := 2

theorem threeBytes_receives : threeBytes.Receives 1 1 :=
  ⟨_,_,rfl,rfl,rfl,Nat.one_ne_zero⟩

theorem threeBytes_reachable :
    performAll [.allocateMemory 24,.allocateMemory 3] initialRun = some threeBytes.blocks := by
  have hsome : (performAll [.allocateMemory 24,.allocateMemory 3] initialRun).isSome := by
    decide +kernel
  obtain ⟨s,hs⟩ := Option.isSome_iff_exists.mp hsome
  rw [threeBytes,hs]
  rfl

/-- A request for two bytes is given the first two. -/
theorem stale_memory_two : threeBytes.received 1 0x500000 2 = some [65,66] ∧
    ∀ k', threeBytes.SameUsed k' → k'.received 1 0x500000 2 = some [65,66] := by
  have hgiven : threeBytes.received 1 0x500000 2 = some [65,66] := by decide +kernel
  refine ⟨hgiven,fun k' hk' => ?_⟩
  rw [← hgiven]
  refine (stale_memory threeBytes_receives (by decide) (by omega) (by decide) 0x500000).mpr
    (Or.inr ⟨by decide +kernel,Or.inr (fun i hi => ?_)⟩) k' hk'
  interval_cases i <;> decide +kernel

/-- A request for four bytes is also given what the free page behind has held. -/
theorem not_stale_memory : ∃ k k' : ReceiverState, (∃ cs, performAll cs initialRun = some k.blocks) ∧
    k.SameUsed k' ∧ k.received 1 0x500000 4 = some [65,66,67,0] ∧
      k'.received 1 0x500000 4 = some [65,66,67,1] := by
  refine ⟨threeBytes,{ threeBytes with memory := Function.update threeBytes.memory 0x602003 1 },
    ⟨_,threeBytes_reachable⟩,?_,by decide +kernel,by decide +kernel⟩
  apply sameUsed_memory
  intro a ha
  apply Function.update_of_ne
  rintro rfl
  exact ha (by decide +kernel)

end ReceiverState
end ComplexOS
