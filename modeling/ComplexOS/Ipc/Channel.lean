import ComplexOS.Heap.BuddyAllocator
import ComplexOS.Library.SlotChains

/-! # Channels

The message lists of `channels.c`. A heap page is named by its number in the arena,
from `1` on, and `0` is NULL, where stores through a NULL pointer go. Freed pages keep what they
held until they are written again. The four semaphores of a channel appear by their values.
-/
namespace ComplexOS

structure MessageNode where
  length : ℕ
  content : ℕ
  nextMessage : ℕ
  deriving DecidableEq, Repr

/-- A page read as a message node, or as plain bytes. -/
inductive Page
  | node (m : MessageNode)
  | bytes (b : List UInt8)
  deriving DecidableEq, Repr

structure Channel where
  senderPid : ℤ
  recipientPid : ℤ
  senderSendSem : ℕ
  recipientSendSem : ℕ
  senderReceiveSem : ℕ
  recipientReceiveSem : ℕ
  senderToRecipient : ℕ
  recipientToSender : ℕ

def maxMessages : ℕ := 10

namespace Channel
variable (memory : ℕ → Page) (c : Channel) (pid senderPid recipientPid : ℤ)

def createChannel : Channel where
  senderPid := senderPid
  recipientPid := recipientPid
  senderSendSem := maxMessages-1
  recipientSendSem := maxMessages-1
  senderReceiveSem := 0
  recipientReceiveSem := 0
  senderToRecipient := 0
  recipientToSender := 0

def channelBelongsToPids (pid1 pid2 : ℤ) : Prop :=
  c.senderPid = pid1 ∧ c.recipientPid = pid2 ∨ c.recipientPid = pid1 ∧ c.senderPid = pid2

instance (pid1 pid2 : ℤ) : Decidable (c.channelBelongsToPids pid1 pid2) :=
  inferInstanceAs (Decidable (_ ∧ _ ∨ _ ∧ _))

/-- The recursion of the source, which follows the list to its NULL and writes every
link on the way back. A walk over more nodes than there are pages has met one twice
and never ends, so the bound of the runs below loses nothing. -/
def addMessageToList (newMessage : ℕ) : ℕ → ℕ → (ℕ → Page) → Option (ℕ × (ℕ → Page))
  | 0, _, _ => none
  | n+1, listHead, memory =>
    if listHead = 0 then some (newMessage,memory)
    else match memory listHead with
      | .bytes _ => none
      | .node m => (addMessageToList newMessage n m.nextMessage memory).bind (fun (r,memory) =>
        match memory listHead with
        | .bytes _ => none
        | .node m =>
          some (listHead,Function.update memory listHead (.node { m with nextMessage := r })))

def walkBound : ℕ := BuddyAllocator.pageQuantity+1

def addMessageToChannel (newMessage : ℕ) : Option (Channel × (ℕ → Page)) :=
  if c.channelBelongsToPids recipientPid senderPid then
    if c.recipientPid = recipientPid then
      (addMessageToList newMessage walkBound c.senderToRecipient memory).map (fun (r,memory) =>
        ({ c with senderToRecipient := r },memory))
    else
      (addMessageToList newMessage walkBound c.recipientToSender memory).map (fun (r,memory) =>
        ({ c with recipientToSender := r },memory))
  else some (c,memory)

def popMessage (listHead : ℕ) : Option (ℕ × ℕ) :=
  if listHead = 0 then none
  else match memory listHead with
    | .bytes _ => none
    | .node m => some (listHead,m.nextMessage)

/-- The pop works on the local `aux`: the new head is dropped and the channel keeps
the old one. -/
def getNextMessageForPid : Option ℕ :=
  let aux := if pid = c.recipientPid then c.senderToRecipient else c.recipientToSender
  (popMessage memory aux).map Prod.fst

def signal (v : ℕ) : ℕ := v+1

def wait (v : ℕ) : Option ℕ := if 0 < v then some (v-1) else none

def lockSend : Option Channel :=
  if c.senderPid = senderPid then
    (wait c.senderSendSem).map (fun v => { c with senderSendSem := v })
  else (wait c.recipientSendSem).map (fun v => { c with recipientSendSem := v })

def unlockReceive : Channel :=
  if c.senderPid = senderPid then { c with recipientReceiveSem := signal c.recipientReceiveSem }
  else { c with senderReceiveSem := signal c.senderReceiveSem }

def lockReceive : Option Channel :=
  if c.recipientPid = recipientPid then
    (wait c.recipientReceiveSem).map (fun v => { c with recipientReceiveSem := v })
  else (wait c.senderReceiveSem).map (fun v => { c with senderReceiveSem := v })

def unlockSend : Channel :=
  if c.recipientPid = recipientPid then { c with senderSendSem := signal c.senderSendSem }
  else { c with recipientSendSem := signal c.recipientSendSem }

/-- The part of `sendMessage` behind its lock, for a message already in memory. -/
def deliver (newMessage : ℕ) : Option (Channel × (ℕ → Page)) :=
  (c.lockSend senderPid).bind (fun c =>
    (c.addMessageToChannel memory senderPid recipientPid newMessage).map (fun (c,memory) =>
      (c.unlockReceive senderPid,memory)))

/-- What `memcpy` finds behind a pointer; for no bytes it does not look there. -/
def copied (content n : ℕ) : Option (List UInt8) :=
  if n = 0 then some []
  else match memory content with
    | .node _ => none
    | .bytes b => some (b.take n)

/-- What `memcpy` leaves behind a pointer, NULL included. -/
def stored (a : ℕ) (bytes : List UInt8) : ℕ → Page :=
  if bytes = [] then memory else Function.update memory a (.bytes bytes)

/-- `receiveMessage`, where `result` is what `allocateMemory(length)` answers: the memory it
leaves, the node it read and freed, and the bytes it copied. That `result` may be NULL is not
looked at. -/
def receiveMessage (length result : ℕ) : Option (Channel × (ℕ → Page) × ℕ × List UInt8) :=
  (c.lockReceive recipientPid).bind (fun c =>
    (c.getNextMessageForPid memory recipientPid).bind (fun message =>
      match memory message with
      | .bytes _ => none
      | .node m =>
        let resultLength := if length > m.length then m.length else length
        (copied memory m.content resultLength).map (fun bytes =>
          (c.unlockSend recipientPid,stored memory result bytes,message,bytes))))

/-! ### Directions -/

def towards : Bool := decide (c.recipientPid = recipientPid)

def head (d : Bool) : ℕ := if d then c.senderToRecipient else c.recipientToSender

variable {memory c senderPid recipientPid}

theorem lockSend_head {c' : Channel} (h : c.lockSend senderPid = some c') (d : Bool) :
    c'.head d = c.head d ∧ c'.senderPid = c.senderPid ∧ c'.recipientPid = c.recipientPid := by
  rw [lockSend] at h
  split at h <;>
  · obtain ⟨v,-,rfl⟩ := Option.map_eq_some_iff.mp h
    exact ⟨rfl,rfl,rfl⟩

theorem unlockReceive_head (d : Bool) : (c.unlockReceive senderPid).head d = c.head d ∧
    (c.unlockReceive senderPid).senderPid = c.senderPid ∧
    (c.unlockReceive senderPid).recipientPid = c.recipientPid := by
  rw [unlockReceive]
  split <;> exact ⟨rfl,rfl,rfl⟩

theorem lockReceive_head {c' : Channel} (h : c.lockReceive recipientPid = some c') (d : Bool) :
    c'.head d = c.head d ∧ c'.senderPid = c.senderPid ∧ c'.recipientPid = c.recipientPid := by
  rw [lockReceive] at h
  split at h <;>
  · obtain ⟨v,-,rfl⟩ := Option.map_eq_some_iff.mp h
    exact ⟨rfl,rfl,rfl⟩

theorem unlockSend_head (d : Bool) : (c.unlockSend recipientPid).head d = c.head d ∧
    (c.unlockSend recipientPid).senderPid = c.senderPid ∧
    (c.unlockSend recipientPid).recipientPid = c.recipientPid := by
  rw [unlockSend]
  split <;> exact ⟨rfl,rfl,rfl⟩

/-- A delivery links the message into the list of its direction and leaves the other. -/
theorem deliver_some {newMessage : ℕ} {c' : Channel} {memory' : ℕ → Page}
    (hb : c.channelBelongsToPids recipientPid senderPid)
    (h : c.deliver memory senderPid recipientPid newMessage = some (c',memory')) :
    addMessageToList newMessage walkBound (c.head (c.towards recipientPid)) memory =
        some (c'.head (c.towards recipientPid),memory') ∧
      (∀ d, d ≠ c.towards recipientPid → c'.head d = c.head d) ∧
      c'.senderPid = c.senderPid ∧ c'.recipientPid = c.recipientPid := by
  obtain ⟨c₁,h₁,h⟩ := Option.bind_eq_some_iff.mp h
  obtain ⟨⟨c₂,m₂⟩,h₂,h⟩ := Option.map_eq_some_iff.mp h
  cases h
  have hl := fun d => lockSend_head h₁ d
  have hpids := hl true
  have hb₁ : c₁.channelBelongsToPids recipientPid senderPid := by
    rw [channelBelongsToPids,hpids.2.1,hpids.2.2]
    exact hb
  have hu : ∀ d, (c₂.unlockReceive senderPid).head d = c₂.head d ∧ _ := fun d => unlockReceive_head d
  rw [addMessageToChannel,if_pos hb₁,hpids.2.2] at h₂
  by_cases hd : c.recipientPid = recipientPid
  · rw [if_pos hd] at h₂
    obtain ⟨⟨r,m⟩,hadd,he⟩ := Option.map_eq_some_iff.mp h₂
    cases he
    have ht : c.towards recipientPid = true := decide_eq_true hd
    rw [ht,(hu true).1,(hu true).2.1,(hu true).2.2,← (hl true).1]
    refine ⟨hadd,fun d hne => ?_,hpids.2.1,rfl⟩
    rw [Bool.eq_false_of_not_eq_true hne,(hu false).1,← (hl false).1]
    rfl
  · rw [if_neg hd] at h₂
    obtain ⟨⟨r,m⟩,hadd,he⟩ := Option.map_eq_some_iff.mp h₂
    cases he
    have ht : c.towards recipientPid = false := decide_eq_false hd
    rw [ht,(hu false).1,(hu false).2.1,(hu false).2.2,← (hl false).1]
    refine ⟨hadd,fun d hne => ?_,hpids.2.1,rfl⟩
    rw [Bool.eq_true_of_not_eq_false hne,(hu true).1,← (hl true).1]
    rfl

theorem popMessage_some {listHead a r : ℕ} (h : popMessage memory listHead = some (a,r)) :
    a = listHead := by
  rw [popMessage] at h
  split at h
  · cases h
  · split at h
    · cases h
    · exact (Prod.mk.inj (Option.some.inj h)).1.symm

theorem copied_bytes {content n : ℕ} {b : List UInt8} (h : b = [] ∨ memory content = .bytes b)
    (hn : n ≤ b.length) : copied memory content n = some (b.take n) := by
  unfold copied
  split
  · rename_i hz
    rw [hz,List.take_zero]
  · rename_i hz
    rcases h with rfl | h
    · exact (hz (Nat.le_zero.mp hn)).elim
    · rw [h]

theorem stored_of_ne {a a' : ℕ} {bytes : List UInt8} (h : bytes = [] ∨ a' ≠ a) :
    stored memory a bytes a' = memory a' := by
  unfold stored
  split
  · rfl
  · rename_i hb
    exact Function.update_of_ne (h.resolve_left hb) _ _

theorem stored_self {a : ℕ} {bytes : List UInt8} :
    bytes = [] ∨ stored memory a bytes a = .bytes bytes := by
  by_cases hb : bytes = []
  · exact Or.inl hb
  · rw [stored,if_neg hb]
    exact Or.inr (Function.update_self _ _ _)

/-- A receive reads and frees the node the list head points at, and moves no head. -/
theorem receiveMessage_some {length result node : ℕ} {c' : Channel} {memory' : ℕ → Page}
    {bytes : List UInt8}
    (h : c.receiveMessage memory recipientPid length result = some (c',memory',node,bytes)) :
    node = c.head (c.towards recipientPid) ∧ (∀ d, c'.head d = c.head d) ∧
      c'.senderPid = c.senderPid ∧ c'.recipientPid = c.recipientPid ∧
      memory' = stored memory result bytes ∧
      ∃ m, memory node = .node m ∧ copied memory m.content (min length m.length) = some bytes := by
  obtain ⟨c₁,h₁,h⟩ := Option.bind_eq_some_iff.mp h
  obtain ⟨message,h₂,h⟩ := Option.bind_eq_some_iff.mp h
  have hl := fun d => lockReceive_head h₁ d
  have hu : ∀ d, (c₁.unlockSend recipientPid).head d = c₁.head d ∧ _ := fun d => unlockSend_head d
  have hmessage : message = c.head (c.towards recipientPid) := by
    obtain ⟨⟨a,r⟩,hpop,rfl⟩ := Option.map_eq_some_iff.mp h₂
    rw [← (hl _).1,towards,← (hl true).2.2]
    by_cases hd : c₁.recipientPid = recipientPid
    · rw [if_pos hd.symm] at hpop
      simpa [hd,head] using popMessage_some hpop
    · rw [if_neg (Ne.symm hd)] at hpop
      simpa [hd,head] using popMessage_some hpop
  split at h
  · cases h
  · rename_i m hm
    obtain ⟨b,hb,h⟩ := Option.map_eq_some_iff.mp h
    cases h
    refine ⟨hmessage,fun d => (hu d).1.trans (hl d).1,(hu true).2.1.trans (hl true).2.1,
      (hu true).2.2.trans (hl true).2.2,rfl,m,hm,?_⟩
    have hmin : (if length > m.length then m.length else length) = min length m.length := by
      split <;> omega
    rwa [hmin] at hb

/-! ### Walks over a list -/

open SlotChains

def links (memory : ℕ → Page) (a : ℕ) : ℕ :=
  match memory a with
  | .node m => m.nextMessage
  | .bytes _ => 0

theorem links_congr {memory memory' : ℕ → Page} {a : ℕ} (h : memory' a = memory a) :
    links memory' a = links memory a := by rw [links,h,links]

/-- Nothing but the links of the listed nodes differs. -/
structure Relinked (nodes : List ℕ) (memory memory' : ℕ → Page) : Prop where
  other : ∀ a, a ∉ nodes → memory' a = memory a
  node : ∀ a ∈ nodes, ∀ m, memory a = .node m → ∃ r, memory' a = .node { m with nextMessage := r }

/-- On a list that ends in NULL the walk appends the message. -/
theorem addMessageToList_path {newMessage listHead n : ℕ} {nodes : List ℕ}
    (hp : Path (links memory) listHead nodes 0) (hnd : nodes.Nodup) (hnew : newMessage ∉ nodes)
    (hnz : ∀ a ∈ nodes, a ≠ 0 ∧ ∃ m, memory a = .node m) (hlen : nodes.length < n) :
    ∃ memory', addMessageToList newMessage n listHead memory =
        some (if nodes = [] then newMessage else listHead,memory') ∧
      Relinked nodes memory memory' ∧
      Path (links memory') (if nodes = [] then newMessage else listHead) (nodes++[newMessage])
        (links memory newMessage) := by
  induction nodes generalizing listHead n with
  | nil =>
    obtain ⟨n,rfl⟩ : ∃ k, n = k+1 := ⟨n-1,by simp at hlen; omega⟩
    cases hp
    exact ⟨memory,by simp [addMessageToList],⟨fun _ _ => rfl,by simp⟩,by simp⟩
  | cons a as ih =>
    obtain ⟨n,rfl⟩ : ∃ k, n = k+1 := ⟨n-1,by simp at hlen; omega⟩
    obtain ⟨rfl,hp⟩ := hp
    obtain ⟨hnot,hnd⟩ := List.nodup_cons.mp hnd
    obtain ⟨hzero,m,hm⟩ := hnz listHead List.mem_cons_self
    rw [List.mem_cons,not_or] at hnew
    obtain ⟨memory₁,hadd,hrel,hpath⟩ := ih hp hnd hnew.2
      (fun b hb => hnz b (List.mem_cons_of_mem _ hb)) (by simpa using hlen)
    have hm₁ : memory₁ listHead = .node m := (hrel.other _ hnot).trans hm
    have hlink : links memory listHead = m.nextMessage := by rw [links,hm]
    rw [hlink] at hadd
    let r := if as = [] then newMessage else links memory listHead
    let memory' := Function.update memory₁ listHead (.node { m with nextMessage := r })
    have hsame : ∀ b, b ≠ listHead → memory' b = memory₁ b :=
      fun b hb => Function.update_of_ne hb _ _
    have hself : memory' listHead = .node { m with nextMessage := r } :=
      Function.update_self _ _ _
    refine ⟨memory',?_,⟨?_,?_⟩,?_⟩
    · rw [addMessageToList,if_neg hzero,hm]
      simp only [hadd,Option.bind_some,hm₁]
      simp [memory',r,hlink]
    · intro b hb
      rw [List.mem_cons,not_or] at hb
      rw [hsame b hb.1,hrel.other b hb.2]
    · intro b hb m' hm'
      by_cases hbl : b = listHead
      · subst hbl
        rw [hm] at hm'
        cases hm'
        exact ⟨r,hself⟩
      · rw [hsame b hbl]
        exact hrel.node b ((List.mem_cons.mp hb).resolve_left hbl) m' hm'
    · rw [if_neg (List.cons_ne_nil _ _),List.cons_append]
      refine ⟨rfl,?_⟩
      have hnext : links memory' listHead = r := by rw [links,hself]
      rw [hnext]
      refine hpath.congr (fun b hb => ?_)
      have hbl : b ≠ listHead := by
        rcases List.mem_append.mp hb with hb | hb
        · exact fun he => hnot (he ▸ hb)
        · exact fun he => hnew.1 ((List.mem_singleton.mp hb).symm.trans he)
      exact links_congr (hsame b hbl)

/-- A node that was freed while it was the head, and is handed out for the next
message, is linked to itself. -/
theorem addMessageToList_head {newMessage n : ℕ} {m : MessageNode} (hz : newMessage ≠ 0)
    (hm : memory newMessage = .node m) (hnext : m.nextMessage = 0) :
    addMessageToList newMessage (n+2) newMessage memory = some (newMessage,
      Function.update memory newMessage (.node { m with nextMessage := newMessage })) := by
  simp [addMessageToList,hz,hm,hnext]

/-- From such a node no walk returns. -/
theorem addMessageToList_loop {newMessage listHead : ℕ} {m : MessageNode} (hz : listHead ≠ 0)
    (hm : memory listHead = .node m) (hnext : m.nextMessage = listHead) (n : ℕ) :
    addMessageToList newMessage n listHead memory = none := by
  induction n with
  | zero => rfl
  | succ n ih => simp [addMessageToList,hz,hm,hnext,ih]

end Channel
end ComplexOS
