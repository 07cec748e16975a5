import ComplexOS.Ipc.Channel
import ComplexOS.Library.Fifo
import ComplexOS.Library.Runs
import Mathlib.Data.Finset.Card
import Mathlib.Data.Finset.Range
import Mathlib.Data.List.Forall2

/-! # Runs over one channel

Threads of the two endpoints send and receive, and the rest of the system writes any
page that no message owns. The allocator may answer any such page, or NULL where it has no
room; which one is part of the step. For each direction the ghosts record the messages linked
and not yet freed, the contents sent, and what the receives handed out.
-/
namespace ComplexOS
open SlotChains

structure Message where
  sender : ℤ
  recipient : ℤ
  node : ℕ
  content : ℕ
  bytes : List UInt8
  deriving DecidableEq, Repr

structure Receipt where
  bytes : List UInt8
  requested : ℕ
  deriving DecidableEq, Repr

def Receipt.Cuts (r : Receipt) (sent : List UInt8) : Prop := r.bytes = sent.take r.requested

structure ChannelRun where
  channel : Channel
  memory : ℕ → Page
  /-- Messages whose `sendMessage` waits in `lockSend`. -/
  prepared : List Message
  queue : Bool → List Message
  sent : Bool → List (List UInt8)
  received : Bool → List Receipt
  /-- Whether a receive has read a node that was not a linked message. -/
  staleRead : Bool

inductive ChannelStep
  | prepare (m : Message)
  | put (i : ℕ)
  /-- `result` is what `allocateMemory(length)` answers. -/
  | receive (pid : ℤ) (length result : ℕ)
  | other (a : ℕ) (p : Page)

namespace ChannelRun
variable (s : ChannelRun)

def start (senderPid recipientPid : ℤ) (memory : ℕ → Page) : ChannelRun :=
  ⟨Channel.createChannel senderPid recipientPid,memory,[],fun _ => [],fun _ => [],fun _ => [],false⟩

def messages : List Message := s.prepared++(s.queue true++s.queue false)

def Owned (a : ℕ) : Prop := a ≠ 0 ∧ ∃ m ∈ s.messages, m.node = a ∨ m.content = a

instance (a : ℕ) : Decidable (s.Owned a) :=
  inferInstanceAs (Decidable (_ ∧ ∃ m ∈ s.messages, _ ∨ _))

/-- What `allocateMemory` may answer for so many bytes: NULL, and for none nothing else. -/
def Answers (bytes a : ℕ) : Prop :=
  a = 0 ∨ 0 < bytes ∧ a ≤ BuddyAllocator.pageQuantity ∧ ¬ s.Owned a

instance (bytes a : ℕ) : Decidable (s.Answers bytes a) :=
  inferInstanceAs (Decidable (_ ∨ _ ∧ _ ∧ _))

/-- The two blocks `sendMessage` has asked for. Only the first one is compared with NULL. -/
def Fresh (m : Message) : Prop :=
  m.node ≠ 0 ∧ m.node ≤ BuddyAllocator.pageQuantity ∧ m.node ≠ m.content ∧
    ¬ s.Owned m.node ∧ s.Answers m.bytes.length m.content

instance (m : Message) : Decidable (s.Fresh m) :=
  inferInstanceAs (Decidable (_ ∧ _ ∧ _ ∧ _ ∧ _))

def step : ChannelStep → Option ChannelRun
  | .prepare m =>
    if s.channel.channelBelongsToPids m.recipient m.sender ∧ s.Fresh m then
      let memory := Function.update s.memory m.node (.node ⟨m.bytes.length,m.content,0⟩)
      some { s with
        memory := Channel.stored memory m.content m.bytes
        prepared := s.prepared++[m] }
    else none
  | .put i => s.prepared[i]?.bind (fun m =>
      let d := s.channel.towards m.recipient
      (s.channel.deliver s.memory m.sender m.recipient m.node).map (fun (c,memory) =>
        { s with
          channel := c
          memory := memory
          prepared := s.prepared.eraseIdx i
          queue := Function.update s.queue d (s.queue d++[m])
          sent := Function.update s.sent d (s.sent d++[m.bytes]) }))
  -- with NULL the caller is told that there is no message, and the message is freed all the same
  | .receive pid length result =>
    if (s.channel.senderPid = pid ∨ s.channel.recipientPid = pid) ∧ s.Answers length result then
      let d := s.channel.towards pid
      (s.channel.receiveMessage s.memory pid length result).map (fun (c,memory,node,bytes) =>
        { s with
          channel := c
          memory := memory
          queue := Function.update s.queue d ((s.queue d).filter (fun m => decide (m.node ≠ node)))
          received := if result = 0 then s.received
            else Function.update s.received d (s.received d++[⟨bytes,length⟩])
          staleRead := s.staleRead || decide (node ∉ (s.queue d).map Message.node) })
    else none
  | .other a p =>
    if s.Owned a then none else some { s with memory := Function.update s.memory a p }

/-- The list head of a direction points at the oldest message of the list. -/
def Aligned (head : ℕ) (q : List Message) : Prop := q.head?.map Message.node = some head

/-- A list head is followed only while it is NULL or points at the oldest message that
is still to be received, the message being linked included, and neither bytes that are sent nor
a message that is taken are copied to NULL. -/
def Calm (s : ChannelRun) : ChannelStep → Prop
  | .prepare m => m.content = 0 → m.bytes = []
  | .put i => ∀ m ∈ s.prepared[i]?, s.channel.head (s.channel.towards m.recipient) = 0 ∨
      Aligned (s.channel.head (s.channel.towards m.recipient))
        (s.queue (s.channel.towards m.recipient)++[m])
  | .receive pid _ result =>
    Aligned (s.channel.head (s.channel.towards pid)) (s.queue (s.channel.towards pid)) ∧ result ≠ 0
  | .other _ _ => True

/-- Each receive of a direction that has handed out something has handed out the message sent in
its place, cut to the requested length, and none has read a freed message. -/
def Law : Prop :=
  (∀ (d : Bool) (k : ℕ) (r : Receipt), (s.received d)[k]? = some r →
    ∃ m : List UInt8, (s.sent d)[k]? = some m ∧ r.Cuts m) ∧ s.staleRead = false

instance (head : ℕ) (q : List Message) : Decidable (Aligned head q) :=
  inferInstanceAs (Decidable (_ = _))

instance (l : ChannelStep) : Decidable (s.Calm l) := by
  cases l <;> simp only [Calm] <;> infer_instance

structure Stored (memory : ℕ → Page) (m : Message) : Prop where
  content : m.bytes = [] ∨ memory m.content = .bytes m.bytes
  node : ∃ r, memory m.node = .node ⟨m.bytes.length,m.content,r⟩

/-- As long as the head points at the oldest message, the list is well linked, or is
one reused node that is linked to itself. -/
def Linked (memory : ℕ → Page) (head : ℕ) (q : List Message) : Prop :=
  Aligned head q → Path (Channel.links memory) head (q.map Message.node) 0 ∨
    ∃ m, q = [m] ∧ Channel.links memory m.node = m.node

def Logged (sent : List (List UInt8)) (received : List Receipt) (q : List Message) : Prop :=
  ∃ done, Fifo.Conserved sent done (q.map Message.bytes) ∧
    List.Forall₂ Receipt.Cuts received done

structure Ok : Prop where
  nodes : (s.messages.map Message.node).Nodup
  apart : ∀ m ∈ s.messages, ∀ m' ∈ s.messages, m.node ≠ m'.content
  pages : ∀ m ∈ s.messages, m.node ≠ 0 ∧ m.node ≤ BuddyAllocator.pageQuantity
  null : ∀ m ∈ s.messages, m.content = 0 → m.bytes = []
  stored : ∀ m ∈ s.messages, Stored s.memory m
  unlinked : ∀ m ∈ s.prepared, Channel.links s.memory m.node = 0
  belongs : ∀ m ∈ s.prepared, s.channel.channelBelongsToPids m.recipient m.sender
  empty : ∀ d, s.channel.head d = 0 → s.queue d = []
  linked : ∀ d, Linked s.memory (s.channel.head d) (s.queue d)
  logged : ∀ d, Logged (s.sent d) (s.received d) (s.queue d)
  clean : s.staleRead = false

variable {s}

theorem mem_messages {m : Message} :
    m ∈ s.messages ↔ m ∈ s.prepared ∨ ∃ d, m ∈ s.queue d := by
  simp only [messages,List.mem_append,Bool.exists_bool]
  tauto

theorem start_ok (a b : ℤ) (memory : ℕ → Page) : (start a b memory).Ok := by
  refine ⟨List.nodup_nil,by simp [start,messages],by simp [start,messages],
    by simp [start,messages],by simp [start,messages],by simp [start],by simp [start],
    fun _ _ => rfl,?_,?_,rfl⟩
  · intro d h
    simp [Aligned,start] at h
  · exact fun d => ⟨[],rfl,List.Forall₂.nil⟩

theorem Ok.law (hs : s.Ok) : s.Law := by
  refine ⟨fun d k r hr => ?_,hs.clean⟩
  obtain ⟨done,hc,hf⟩ := hs.logged d
  obtain ⟨hk,hr⟩ := List.getElem?_eq_some_iff.mp hr
  have hk' : k < done.length := hf.length_eq ▸ hk
  have hcuts := (List.forall₂_iff_get.mp hf).2 k hk hk'
  subst hr
  refine ⟨done[k],?_,hcuts⟩
  rw [hc,List.getElem?_append_left hk',List.getElem?_eq_getElem hk']

/-- Pages that no message owns do not matter. -/
theorem Linked.congr {memory memory' : ℕ → Page} {head : ℕ} {q : List Message}
    (h : Linked memory head q) (hm : ∀ m ∈ q, memory' m.node = memory m.node) :
    Linked memory' head q := by
  have hlinks : ∀ m ∈ q, Channel.links memory' m.node = Channel.links memory m.node :=
    fun m hq => Channel.links_congr (hm m hq)
  intro ha
  rcases h ha with hp | ⟨m,rfl,hl⟩
  · refine Or.inl (hp.congr (fun a hmem => ?_))
    obtain ⟨m,hq,rfl⟩ := List.mem_map.mp hmem
    exact hlinks m hq
  · exact Or.inr ⟨m,rfl,(hlinks m List.mem_cons_self).trans hl⟩

theorem Stored.congr {memory memory' : ℕ → Page} {m : Message} (h : Stored memory m)
    (hn : memory' m.node = memory m.node)
    (hc : m.bytes = [] ∨ memory' m.content = memory m.content) : Stored memory' m := by
  refine ⟨?_,h.node.imp (fun _ hr => hn.trans hr)⟩
  rcases hc with hc | hc
  · exact Or.inl hc
  · rw [hc]
    exact h.content

/-- A page that no message owns, NULL included, is the node of none and the content of none that
has bytes. -/
theorem Ok.apart_of_not_owned (hs : s.Ok) {a : ℕ} (h : ¬ s.Owned a) {m : Message}
    (hm : m ∈ s.messages) : m.node ≠ a ∧ (m.bytes = [] ∨ m.content ≠ a) := by
  by_cases ha : a = 0
  · subst ha
    refine ⟨(hs.pages m hm).1,?_⟩
    by_cases hc : m.content = 0
    · exact Or.inl (hs.null m hm hc)
    · exact Or.inr hc
  · exact ⟨fun he => h ⟨ha,m,hm,Or.inl he⟩,Or.inr (fun he => h ⟨ha,m,hm,Or.inr he⟩)⟩

/-- A store to such a page is not seen by any message. -/
theorem Ok.stored_elsewhere (hs : s.Ok) {a : ℕ} {memory : ℕ → Page} (h : ¬ s.Owned a)
    (hm : ∀ b, b ≠ a → memory b = s.memory b) {m : Message} (hmem : m ∈ s.messages) :
    Stored memory m ∧ memory m.node = s.memory m.node := by
  obtain ⟨hn,hc⟩ := hs.apart_of_not_owned h hmem
  exact ⟨(hs.stored m hmem).congr (hm _ hn) (hc.imp_right (hm _)),hm _ hn⟩

theorem other_ok {a : ℕ} {p : Page} {s' : ChannelRun} (hs : s.Ok)
    (h : step s (.other a p) = some s') : s'.Ok := by
  rw [step] at h
  split at h
  · cases h
  · rename_i hfree
    cases h
    have hkeep : ∀ m ∈ s.messages, Stored (Function.update s.memory a p) m ∧
        Function.update s.memory a p m.node = s.memory m.node := fun m hm =>
      hs.stored_elsewhere hfree (fun b hb => Function.update_of_ne hb _ _) hm
    refine ⟨hs.nodes,hs.apart,hs.pages,hs.null,fun m hm => (hkeep m hm).1,fun m hm => ?_,
      hs.belongs,hs.empty,fun d => ?_,hs.logged,hs.clean⟩
    · have hlink := Channel.links_congr (hkeep m (mem_messages.mpr (Or.inl hm))).2
      exact hlink.trans (hs.unlinked m hm)
    · exact (hs.linked d).congr (fun m hm => (hkeep m (mem_messages.mpr (Or.inr ⟨d,hm⟩))).2)

theorem prepare_ok {m : Message} {s' : ChannelRun} (hs : s.Ok) (hc : s.Calm (.prepare m))
    (h : step s (.prepare m) = some s') : s'.Ok := by
  rw [step] at h
  split at h
  swap
  · cases h
  rename_i hg
  obtain ⟨hb,hz,hle,hnc,hfn,hanswer⟩ := hg
  cases h
  let memory := Channel.stored (Function.update s.memory m.node
    (.node ⟨m.bytes.length,m.content,0⟩)) m.content m.bytes
  have hfc : ¬ s.Owned m.content := by
    rcases hanswer with hzero | hpage
    · exact fun ho => ho.1 hzero
    · exact hpage.2.2
  have hn : ∀ u ∈ s.messages, u.node ≠ m.node ∧ u.content ≠ m.node ∧ u.node ≠ m.content :=
    fun u hu => ⟨fun he => hfn ⟨hz,u,hu,Or.inl he⟩,fun he => hfn ⟨hz,u,hu,Or.inr he⟩,
      (hs.apart_of_not_owned hfc hu).1⟩
  have hnode : ∀ u ∈ s.messages, memory u.node = s.memory u.node := fun u hu =>
    (Channel.stored_of_ne (Or.inr (hn u hu).2.2)).trans (Function.update_of_ne (hn u hu).1 _ _)
  have hkeep : ∀ u ∈ s.messages, Stored memory u := fun u hu =>
    (hs.stored u hu).congr (hnode u hu) ((hs.apart_of_not_owned hfc hu).2.imp_right (fun hne =>
      (Channel.stored_of_ne (Or.inr hne)).trans (Function.update_of_ne (hn u hu).2.1 _ _)))
  have hown : memory m.node = .node ⟨m.bytes.length,m.content,0⟩ :=
    (Channel.stored_of_ne (Or.inr hnc)).trans (Function.update_self _ _ _)
  have hstored : Stored memory m := ⟨Channel.stored_self,⟨0,hown⟩⟩
  have hmem : ∀ u, u ∈ messages { s with memory := memory, prepared := s.prepared++[m] } →
      u ∈ s.messages ∨ u = m := by
    intro u hu
    simp only [messages,List.mem_append,List.mem_singleton] at hu ⊢
    rcases hu with (hu | hu) | hu
    · exact Or.inl (Or.inl hu)
    · exact Or.inr hu
    · exact Or.inl (Or.inr hu)
  have hperm : (messages { s with memory := memory, prepared := s.prepared++[m] }).Perm
      (m::s.messages) := by
    simp only [messages,List.append_assoc,List.singleton_append]
    exact List.perm_middle
  refine ⟨?_,?_,?_,?_,?_,?_,?_,hs.empty,?_,hs.logged,hs.clean⟩
  · rw [(hperm.map Message.node).nodup_iff,List.map_cons,List.nodup_cons]
    refine ⟨fun hx => ?_,hs.nodes⟩
    obtain ⟨u,hu,he⟩ := List.mem_map.mp hx
    exact (hn u hu).1 he
  · intro u hu w hw
    rcases hmem u hu with hu' | hu' <;> rcases hmem w hw with hw' | hw'
    · exact hs.apart u hu' w hw'
    · exact hw' ▸ (hn u hu').2.2
    · exact hu' ▸ (hn w hw').2.1.symm
    · exact hu' ▸ hw' ▸ hnc
  · intro u hu
    rcases hmem u hu with hu | rfl
    · exact hs.pages u hu
    · exact ⟨hz,hle⟩
  · intro u hu
    rcases hmem u hu with hu | rfl
    · exact hs.null u hu
    · exact hc
  · intro u hu
    rcases hmem u hu with hu | rfl
    · exact hkeep u hu
    · exact hstored
  · intro u hu
    rcases List.mem_append.mp hu with hu | hu
    · have hlink := Channel.links_congr (hnode u (mem_messages.mpr (Or.inl hu)))
      exact hlink.trans (hs.unlinked u hu)
    · have hlink : Channel.links memory m.node = 0 := by rw [Channel.links,hown]
      rw [List.mem_singleton.mp hu]
      exact hlink
  · intro u hu
    rcases List.mem_append.mp hu with hu | hu
    · exact hs.belongs u hu
    · exact List.mem_singleton.mp hu ▸ hb
  · exact fun d => (hs.linked d).congr (fun u hu => hnode u (mem_messages.mpr (Or.inr ⟨d,hu⟩)))

/-- What a walk over one list leaves behind for every message. -/
theorem Ok.stored_relinked (hs : s.Ok) {memory : ℕ → Page} {nodes : List ℕ}
    (hr : Channel.Relinked nodes s.memory memory)
    (hn : ∀ a ∈ nodes, ∃ u ∈ s.messages, u.node = a) {m : Message} (hm : m ∈ s.messages) :
    Stored memory m := by
  have hc : m.content ∉ nodes := by
    intro hx
    obtain ⟨u,hu,he⟩ := hn _ hx
    exact hs.apart u hu m hm he
  have hst := hs.stored m hm
  refine ⟨hst.content.imp_right (fun hx => (hr.other _ hc).trans hx),?_⟩
  obtain ⟨r,hnode⟩ := hst.node
  by_cases hx : m.node ∈ nodes
  · exact hr.node _ hx _ hnode
  · exact ⟨r,(hr.other _ hx).trans hnode⟩

theorem Aligned.head_eq {head : ℕ} {m : Message} {q : List Message} (h : Aligned head (m::q)) :
    head = m.node := (Option.some.inj h).symm

/-- The list of a direction, the page bound of the arena included. -/
theorem Ok.queue_length (hs : s.Ok) (d : Bool) :
    ((s.queue d).map Message.node).Nodup ∧
      ((s.queue d).map Message.node).length < Channel.walkBound := by
  have hsub : (s.queue d).Sublist s.messages := by
    cases d
    · exact (List.sublist_append_right _ _).trans (List.sublist_append_right _ _)
    · exact (List.sublist_append_left _ _).trans (List.sublist_append_right _ _)
  have hnd := hs.nodes.sublist (hsub.map Message.node)
  refine ⟨hnd,?_⟩
  have hin : ((s.queue d).map Message.node).toFinset ⊆
      Finset.range (BuddyAllocator.pageQuantity+1) \ {0} := by
    intro a ha
    obtain ⟨m,hm,rfl⟩ := List.mem_map.mp (List.mem_toFinset.mp ha)
    have := hs.pages m (hsub.subset hm)
    simp only [Finset.mem_sdiff,Finset.mem_range,Finset.mem_singleton]
    omega
  have hcard := Finset.card_le_card hin
  rw [List.toFinset_card_of_nodup hnd,Finset.card_sdiff_of_subset (by simp),Finset.card_range,
    Finset.card_singleton] at hcard
  simp only [Channel.walkBound]
  omega

/-- Linking a message keeps the list of its direction well linked. -/
theorem put_linked (hs : s.Ok) {m : Message} {h' : ℕ} {memory : ℕ → Page} {d : Bool}
    (hm : m ∈ s.prepared) (hnot : ∀ u ∈ s.queue d, u.node ≠ m.node)
    (hc : s.channel.head d = 0 ∨ Aligned (s.channel.head d) (s.queue d++[m]))
    (h : Channel.addMessageToList m.node Channel.walkBound (s.channel.head d) s.memory =
      some (h',memory)) :
    h' ≠ 0 ∧ Linked memory h' (s.queue d++[m]) ∧
      Channel.Relinked ((s.queue d).map Message.node++[m.node]) s.memory memory := by
  have hmem := mem_messages.mpr (Or.inl hm)
  have hz := (hs.pages m hmem).1
  obtain ⟨hnd,hlen⟩ := hs.queue_length d
  have hnotmem : m.node ∉ (s.queue d).map Message.node := by
    intro hx
    obtain ⟨u,hu,he⟩ := List.mem_map.mp hx
    exact hnot u hu he
  have hpages : ∀ a ∈ (s.queue d).map Message.node, a ≠ 0 ∧ ∃ n, s.memory a = .node n := by
    intro a ha
    obtain ⟨u,hu,rfl⟩ := List.mem_map.mp ha
    have hu := mem_messages.mpr (Or.inr ⟨d,hu⟩)
    obtain ⟨r,hr⟩ := (hs.stored u hu).node
    exact ⟨(hs.pages u hu).1,_,hr⟩
  -- over a list that ends in NULL the walk appends the node
  have hchain (hp : Path (Channel.links s.memory) (s.channel.head d)
      ((s.queue d).map Message.node) 0) (hhead : s.queue d ≠ [] → s.channel.head d ≠ 0) :
      h' ≠ 0 ∧ Linked memory h' (s.queue d++[m]) ∧
        Channel.Relinked ((s.queue d).map Message.node++[m.node]) s.memory memory := by
    obtain ⟨memory',hadd,hrel,hpath⟩ :=
      Channel.addMessageToList_path hp hnd hnotmem hpages hlen
    rw [h] at hadd
    cases hadd
    rw [hs.unlinked m hm] at hpath
    refine ⟨?_,fun _ => Or.inl (by simpa using hpath),?_⟩
    · by_cases he : s.queue d = []
      · simp [he,hz]
      · simp [he,hhead he]
    · refine ⟨fun a ha => hrel.other a (fun hx => ha (List.mem_append_left _ hx)),?_⟩
      intro a ha n hn
      rcases List.mem_append.mp ha with ha | ha
      · exact hrel.node a ha n hn
      · rw [List.mem_singleton.mp ha] at hn ⊢
        exact ⟨n.nextMessage,(hrel.other _ hnotmem).trans hn⟩
  rcases hc with hzero | halign
  · have hempty := hs.empty d hzero
    exact hchain (by rw [hempty,hzero]; rfl) (fun hne => (hne hempty).elim)
  · cases hq : s.queue d with
    | nil =>
      -- the freed first node has been handed out for the new message
      rw [hq] at halign
      have hhead := halign.head_eq
      obtain ⟨r,hr⟩ := (hs.stored m hmem).node
      have hnext : r = 0 := by
        have := hs.unlinked m hm
        rwa [Channel.links,hr] at this
      have hbound : Channel.walkBound = 2047+2 := rfl
      rw [hhead,hbound,Channel.addMessageToList_head hz hr hnext] at h
      cases h
      refine ⟨hz,fun _ => Or.inr ⟨m,rfl,?_⟩,?_⟩
      · rw [Channel.links,Function.update_self]
      · refine ⟨fun a ha => Function.update_of_ne (fun he => ha (by simp [he])) _ _,?_⟩
        intro a ha n hn
        have ha : a = m.node := by simpa using ha
        rw [ha] at hn ⊢
        rw [hr] at hn
        cases hn
        exact ⟨m.node,Function.update_self _ _ _⟩
    | cons u us =>
      rw [hq] at halign
      have hhead := halign.head_eq
      have hal : Aligned (s.channel.head d) (s.queue d) := by
        rw [hq]
        exact halign
      have hu := mem_messages.mpr (Or.inr ⟨d,hq ▸ List.mem_cons_self⟩ : u ∈ s.prepared ∨ _)
      have huz := (hs.pages u hu).1
      rw [← hq]
      rcases hs.linked d hal with hp | ⟨w,hw,hl⟩
      · exact hchain hp (fun _ => hhead ▸ huz)
      · -- over a node linked to itself the recursion does not return
        rw [hq] at hw
        cases hw
        obtain ⟨r,hr⟩ := (hs.stored u hu).node
        have hloop : r = u.node := by rwa [Channel.links,hr] at hl
        rw [hhead,Channel.addMessageToList_loop huz hr hloop] at h
        cases h

theorem prepared_apart (hnd : (s.messages.map Message.node).Nodup) {u w : Message} {d : Bool}
    (hu : u ∈ s.prepared) (hw : w ∈ s.queue d) : u.node ≠ w.node := by
  rw [messages,List.map_append,List.nodup_append] at hnd
  refine hnd.2.2 _ (List.mem_map_of_mem hu) _ (List.mem_map_of_mem ?_)
  cases d
  · exact List.mem_append_right _ hw
  · exact List.mem_append_left _ hw

theorem queues_apart (hnd : (s.messages.map Message.node).Nodup) {u w : Message} {d d' : Bool}
    (hd : d ≠ d') (hu : u ∈ s.queue d) (hw : w ∈ s.queue d') : u.node ≠ w.node := by
  rw [messages,List.map_append,List.nodup_append,List.map_append,List.nodup_append] at hnd
  have hapart := hnd.2.1.2.2
  cases d <;> cases d'
  · exact (hd rfl).elim
  · exact (hapart _ (List.mem_map_of_mem hw) _ (List.mem_map_of_mem hu)).symm
  · exact hapart _ (List.mem_map_of_mem hu) _ (List.mem_map_of_mem hw)
  · exact (hd rfl).elim

/-- A message moves from the prepared ones to the queue of its direction. -/
theorem messages_put {i : ℕ} {m : Message} (hm : s.prepared[i]? = some m) (d : Bool)
    {s' : ChannelRun} (hp : s'.prepared = s.prepared.eraseIdx i)
    (hq : s'.queue = Function.update s.queue d (s.queue d++[m])) : s'.messages.Perm s.messages := by
  obtain ⟨hi,he⟩ := List.getElem?_eq_some_iff.mp hm
  have hperm := List.getElem_cons_eraseIdx_perm hi
  rw [he] at hperm
  have hmove : s'.messages.Perm (m::(s.prepared.eraseIdx i++(s.queue true++s.queue false))) := by
    rw [messages,hp,hq]
    cases d
    · simp only [Function.update_self,ne_eq,Bool.true_eq_false,not_false_eq_true,
        Function.update_of_ne,← List.append_assoc]
      exact List.perm_append_singleton _ _
    · simp only [Function.update_self,ne_eq,Bool.false_eq_true,not_false_eq_true,
        Function.update_of_ne,List.append_assoc,List.singleton_append]
      rw [← List.append_assoc,← List.append_assoc]
      exact List.perm_middle
  exact hmove.trans (hperm.append_right _)

theorem put_ok {i : ℕ} {s' : ChannelRun} (hs : s.Ok) (hc : s.Calm (.put i))
    (h : step s (.put i) = some s') : s'.Ok := by
  obtain ⟨m,hi,h⟩ := Option.bind_eq_some_iff.mp h
  obtain ⟨⟨c,memory⟩,hdel,h⟩ := Option.map_eq_some_iff.mp h
  have hm : m ∈ s.prepared := List.mem_of_getElem? hi
  obtain ⟨hadd,hother,hsp,hrp⟩ := Channel.deliver_some (hs.belongs m hm) hdel
  have hcalm := hc m hi
  generalize s.channel.towards m.recipient = d at h hadd hother hcalm
  obtain ⟨hnz,hlinked,hrel⟩ :=
    put_linked hs hm (fun u hu => (prepared_apart hs.nodes hm hu).symm) hcalm hadd
  have hperm : s'.messages.Perm s.messages := messages_put hi d (by rw [← h]) (by rw [← h])
  have hmem : ∀ u, u ∈ s'.messages ↔ u ∈ s.messages := fun u => hperm.mem_iff
  have hnodes : (s'.messages.map Message.node).Nodup :=
    (hperm.map Message.node).nodup_iff.mpr hs.nodes
  have hqueue : s'.queue d = s.queue d++[m] := by rw [← h]; simp
  have hqueue' : ∀ d', d' ≠ d → s'.queue d' = s.queue d' := fun d' hd => by
    rw [← h]
    simp [hd]
  have hwalked : ∀ a ∈ (s.queue d).map Message.node++[m.node], ∃ u ∈ s'.queue d, u.node = a := by
    intro a ha
    have ha : a ∈ (s'.queue d).map Message.node := by
      rw [hqueue,List.map_append]
      exact ha
    obtain ⟨u,hu,he⟩ := List.mem_map.mp ha
    exact ⟨u,hu,he⟩
  have hmemory : s'.memory = memory := by rw [← h]
  have hchannel : s'.channel = c := by rw [← h]
  refine ⟨hnodes,?_,?_,?_,?_,?_,?_,?_,?_,?_,by rw [← h]; exact hs.clean⟩
  · exact fun u hu w hw => hs.apart u ((hmem u).mp hu) w ((hmem w).mp hw)
  · exact fun u hu => hs.pages u ((hmem u).mp hu)
  · exact fun u hu => hs.null u ((hmem u).mp hu)
  · intro u hu
    rw [hmemory]
    refine hs.stored_relinked hrel (fun a ha => ?_) ((hmem u).mp hu)
    obtain ⟨w,hw,he⟩ := hwalked a ha
    exact ⟨w,(hmem w).mp (mem_messages.mpr (Or.inr ⟨d,hw⟩)),he⟩
  · intro u hu
    have hnot : u.node ∉ (s.queue d).map Message.node++[m.node] := by
      intro hx
      obtain ⟨w,hw,he⟩ := hwalked _ hx
      exact prepared_apart hnodes hu hw he.symm
    rw [← h] at hu
    have hlink := Channel.links_congr (hrel.other _ hnot)
    rw [hmemory,hlink]
    exact hs.unlinked u (List.mem_of_mem_eraseIdx hu)
  · intro u hu
    rw [← h] at hu
    rw [hchannel,Channel.channelBelongsToPids,hsp,hrp]
    exact hs.belongs u (List.mem_of_mem_eraseIdx hu)
  · intro d' hzero
    rw [hchannel] at hzero
    by_cases hd : d' = d
    · exact (hnz (hd ▸ hzero)).elim
    · rw [hqueue' d' hd]
      exact hs.empty d' (hother d' hd ▸ hzero)
  · intro d'
    rw [hchannel,hmemory]
    by_cases hd : d' = d
    · rw [hd,hqueue]
      exact hlinked
    · rw [hqueue' d' hd,hother d' hd]
      refine (hs.linked d').congr (fun u hu => hrel.other _ (fun hx => ?_))
      obtain ⟨w,hw,he⟩ := hwalked _ hx
      exact queues_apart hnodes hd (by rw [hqueue' d' hd]; exact hu) hw he.symm
  · intro d'
    rw [← h]
    by_cases hd : d' = d
    · obtain ⟨done,hcons,hf⟩ := hs.logged d
      rw [hd]
      refine ⟨done,?_,hf⟩
      simp only [Function.update_self,List.map_append,List.map_singleton]
      exact hcons.put
    · simp only [Function.update_of_ne hd]
      exact hs.logged d'

theorem receive_ok {pid : ℤ} {length result : ℕ} {s' : ChannelRun} (hs : s.Ok)
    (hc : s.Calm (.receive pid length result)) (h : step s (.receive pid length result) = some s') :
    s'.Ok := by
  obtain ⟨hcalm,hnull⟩ := hc
  rw [step] at h
  split at h
  swap
  · cases h
  rename_i hg
  have hfree : ¬ s.Owned result := (hg.2.resolve_left hnull).2.2
  obtain ⟨⟨c,memory,node,bytes⟩,hrec,h⟩ := Option.map_eq_some_iff.mp h
  obtain ⟨hnode,hheads,hsp,hrp,rfl,n,hn,hbytes⟩ := Channel.receiveMessage_some hrec
  have hkeep : ∀ m ∈ s.messages, Stored (Channel.stored s.memory result bytes) m ∧
      Channel.stored s.memory result bytes m.node = s.memory m.node := fun m hm =>
    hs.stored_elsewhere hfree (fun b hb => Channel.stored_of_ne (Or.inr hb)) hm
  generalize s.channel.towards pid = d at h hnode hcalm
  cases hq : s.queue d with
  | nil => simp [Aligned,hq] at hcalm
  | cons m qs =>
  have hhead : node = m.node := by
    rw [hq] at hcalm
    exact hnode.trans hcalm.head_eq
  have hmem := mem_messages.mpr (Or.inr ⟨d,hq ▸ List.mem_cons_self⟩ : m ∈ s.prepared ∨ _)
  have hst := hs.stored m hmem
  obtain ⟨r,hr⟩ := hst.node
  rw [hhead,hr] at hn
  cases hn
  rw [Channel.copied_bytes hst.content (Nat.min_le_right _ _)] at hbytes
  have hcut : bytes = m.bytes.take length := by
    rw [← Option.some.inj hbytes,← List.take_take,List.take_length]
  obtain ⟨hnd,-⟩ := hs.queue_length d
  rw [hq,List.map_cons,List.nodup_cons] at hnd
  have hrest : ∀ u ∈ qs, u.node ≠ m.node :=
    fun u hu he => hnd.1 (he ▸ List.mem_map_of_mem hu)
  have hfilter : (s.queue d).filter (fun u => decide (u.node ≠ node)) = qs := by
    rw [hq,hhead,List.filter_cons_of_neg (by simp)]
    exact List.filter_eq_self.mpr (fun u hu => decide_eq_true (hrest u hu))
  have hqueue : s'.queue d = qs := by
    rw [← h]
    simp only [Function.update_self,hfilter]
  have hqueue' : ∀ d', d' ≠ d → s'.queue d' = s.queue d' := fun d' hd => by
    rw [← h]
    simp [hd]
  have hsub : s'.messages.Sublist s.messages := by
    have hq' : ∀ d', (s'.queue d').Sublist (s.queue d') := by
      intro d'
      by_cases hd : d' = d
      · rw [hd,hqueue,hq]
        exact List.sublist_cons_self _ _
      · rw [hqueue' d' hd]
    have hp : s'.prepared = s.prepared := by rw [← h]
    rw [messages,hp]
    exact (List.Sublist.refl _).append ((hq' true).append (hq' false))
  have hmemory : s'.memory = Channel.stored s.memory result bytes := by rw [← h]
  have hchannel : s'.channel = c := by rw [← h]
  have hp : s'.prepared = s.prepared := by rw [← h]
  refine ⟨hs.nodes.sublist (hsub.map _),?_,?_,?_,?_,?_,?_,?_,?_,?_,?_⟩
  · exact fun u hu w hw => hs.apart u (hsub.subset hu) w (hsub.subset hw)
  · exact fun u hu => hs.pages u (hsub.subset hu)
  · exact fun u hu => hs.null u (hsub.subset hu)
  · exact fun u hu => hmemory ▸ (hkeep u (hsub.subset hu)).1
  · rw [hp,hmemory]
    intro u hu
    exact (Channel.links_congr (hkeep u (mem_messages.mpr (Or.inl hu))).2).trans (hs.unlinked u hu)
  · intro u hu
    rw [hchannel,Channel.channelBelongsToPids,hsp,hrp]
    exact hs.belongs u (hp ▸ hu)
  · intro d' hzero
    rw [hchannel,hheads d'] at hzero
    have hempty := hs.empty d' hzero
    by_cases hd : d' = d
    · rw [hd,hq] at hempty
      cases hempty
    · rw [hqueue' d' hd]
      exact hempty
  · intro d'
    rw [hchannel,hheads d',hmemory]
    by_cases hd : d' = d
    · -- the head stays behind at the freed node, where no other message lies
      rw [hd,hqueue,← hnode,hhead]
      intro ha
      cases qs with
      | nil => simp [Aligned] at ha
      | cons u us => exact (hrest u List.mem_cons_self ha.head_eq.symm).elim
    · rw [hqueue' d' hd]
      exact (hs.linked d').congr (fun u hu => (hkeep u (mem_messages.mpr (Or.inr ⟨d',hu⟩))).2)
  · intro d'
    by_cases hd : d' = d
    · obtain ⟨done,hcons,hf⟩ := hs.logged d
      rw [hq,List.map_cons] at hcons
      have hsent : s'.sent = s.sent := by rw [← h]
      have hreceived : s'.received d = s.received d++[⟨bytes,length⟩] := by
        rw [← h]
        simp
      rw [hd,hqueue,hsent,hreceived]
      exact ⟨done++[m.bytes],hcons.take,List.rel_append hf (List.Forall₂.cons hcut .nil)⟩
    · rw [hqueue' d' hd,← h]
      simp only [Function.update_of_ne hd]
      exact hs.logged d'
  · rw [← h]
    simp [hs.clean,hhead,hq]

theorem step_ok {l : ChannelStep} {s' : ChannelRun} (hs : s.Ok) (hc : s.Calm l)
    (h : step s l = some s') : s'.Ok := by
  cases l with
  | prepare m => exact prepare_ok hs hc h
  | put i => exact put_ok hs hc h
  | receive pid length result => exact receive_ok hs hc h
  | other a p => exact other_ok hs h

/-- Delivery in order, of every message once, in every run whose steps are calm. -/
theorem channel_delivery {a b : ℤ} {memory : ℕ → Page} {ls : List ChannelStep}
    (hc : Runs.Along step Calm (start a b memory) ls)
    (hr : Runs.run step (start a b memory) ls = some s) : s.Law :=
  ((Runs.Along.invariant (fun _ _ _ hs hc h => step_ok hs hc h) (fun _ _ _ hc => hc)
    (start_ok a b memory) hc).2 s hr).law

theorem channel_delivery_reused :
    ∃ s, Runs.run step (start 1 2 (fun _ => .bytes []))
      [.prepare ⟨1,2,1,2,[65]⟩,.put 0,.receive 2 8 5,.prepare ⟨1,2,1,3,[66]⟩,.put 0,.receive 2 8 5] =
        some s ∧ s.Law := by
  have hc : Runs.Along step Calm (start 1 2 (fun _ => .bytes []))
      [.prepare ⟨1,2,1,2,[65]⟩,.put 0,.receive 2 8 5,.prepare ⟨1,2,1,3,[66]⟩,.put 0,
        .receive 2 8 5] := by decide
  have hs : (Runs.run step (start 1 2 (fun _ => .bytes []))
      [.prepare ⟨1,2,1,2,[65]⟩,.put 0,.receive 2 8 5,.prepare ⟨1,2,1,3,[66]⟩,.put 0,
        .receive 2 8 5]).isSome := by decide
  obtain ⟨s,hs⟩ := Option.isSome_iff_exists.mp hs
  exact ⟨s,hs,channel_delivery hc hs⟩

/-- Two messages sent ahead of two receives: the second receive reads the first
message again, which has been freed. -/
theorem channel_delivery_fails :
    ¬ ∀ a b memory ls s, Runs.run step (start a b memory) ls = some s → s.Law := by
  intro h
  have hs : (Runs.run step (start 1 2 (fun _ => .bytes []))
      [.prepare ⟨1,2,1,2,[65]⟩,.put 0,.prepare ⟨1,2,3,4,[66]⟩,.put 0,.receive 2 8 5,
        .receive 2 8 5]).map staleRead = some true := by decide
  obtain ⟨s,hr,hst⟩ := Option.map_eq_some_iff.mp hs
  have hlaw := (h _ _ _ _ s hr).2
  rw [hst] at hlaw
  cases hlaw

end ChannelRun
end ComplexOS
