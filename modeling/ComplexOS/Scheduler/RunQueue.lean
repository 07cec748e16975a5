import ComplexOS.Library.Runs
import ComplexOS.Scheduler.RoundRobin

/-! # The run queue

The slots in use, the ring through them, the counter and the cached free slot. The
removal that finds the table full leaves the cache at its sentinel, and that is the
only way the invariant breaks.
-/
namespace ComplexOS
open SlotChains

namespace Scheduler
variable (s : Scheduler)

def Cycle : List ℤ → Prop
  | [] => True
  | c::rest => s.current = c ∧ Ring s.link c rest

structure Queued (slots : List ℤ) : Prop where
  live : ∀ i, i ∈ slots ↔ InTable i ∧ s.Live i
  cycle : s.Cycle slots
  quantity : s.processQuantity = slots.length

structure RunQueue : Prop where
  queued : ∃ slots, s.Queued slots
  space : s.processQuantity < maxProcesses →
    InTable s.firstAvailableSpace ∧ ¬ s.Live s.firstAvailableSpace
  addSafe : ∀ p i, (s.addProcess p).1.processes i ≠ s.processes i →
    InTable i ∧ (s.Live i → (s.addProcess p).1.process? i = s.process? i)

/-- What the invariant leaves open of a full table. -/
structure Ok : Prop where
  queue : s.RunQueue
  full : s.processQuantity = maxProcesses → s.firstAvailableSpace = -1
  unlocked : s.changeLock = 0

structure SameQueue (s s' : Scheduler) : Prop where
  link : s'.link = s.link
  live : ∀ i, s'.Live i ↔ s.Live i
  current : s'.current = s.current
  quantity : s'.processQuantity = s.processQuantity
  space : s'.firstAvailableSpace = s.firstAvailableSpace
  changeLock : s'.changeLock = s.changeLock

variable {s} {s' s'' : Scheduler} {i j r : ℤ} {p q : ProcessRecord} {slots : List ℤ}

theorem SameQueue.refl (s : Scheduler) : SameQueue s s := ⟨rfl,fun _ => Iff.rfl,rfl,rfl,rfl,rfl⟩

theorem SameQueue.trans (h : SameQueue s s') (h' : SameQueue s' s'') : SameQueue s s'' :=
  ⟨h'.link.trans h.link,fun i => (h'.live i).trans (h.live i),h'.current.trans h.current,
    h'.quantity.trans h.quantity,h'.space.trans h.space,h'.changeLock.trans h.changeLock⟩

/-- A live slot's record is replaced. -/
theorem SameQueue.setProcess (hi : s.Live i) : SameQueue s (s.setProcess i (some p)) := by
  refine ⟨link_setProcess,fun k => ?_,rfl,rfl,rfl,rfl⟩
  rw [Live,process?_setProcess]
  split
  · rename_i h
    exact ⟨fun _ => h ▸ hi,fun _ => rfl⟩
  · exact Iff.rfl

theorem live_of_process (h : s.process? i = some p) : s.Live i := by rw [Live,h]; rfl

theorem demoteCurrent_same (h : s.demoteCurrent = some s') : SameQueue s s' := by
  rw [demoteCurrent] at h
  split at h
  · cases h
    exact SameQueue.refl s
  · rename_i p hp
    obtain ⟨st,-,h⟩ := Option.map_eq_some_iff.mp h
    split at h
    · rw [← h]
      exact SameQueue.setProcess (live_of_process hp)
    · rw [← h]
      exact SameQueue.refl s

/-- The walk changes records only and ends in every set that the links do not leave. -/
theorem findProcess_same {S : ℤ → Prop} {first : ℤ} {n : ℕ} (hS : ∀ k, S k → S (s.link k))
    (hi : S (s.link i)) (h : findProcess first n i s = some (j,s')) : SameQueue s s' ∧ S j := by
  induction n generalizing i s with
  | zero => cases h
  | succ n ih =>
    simp only [findProcess,Option.bind_eq_bind,Option.bind_eq_some_iff] at h
    obtain ⟨p,hp,⟨found,p'⟩,-,h⟩ := h
    have hsame := SameQueue.setProcess (p := p') (live_of_process hp)
    split at h
    · rw [← hsame.link] at hS hi
      obtain ⟨h1,h2⟩ := ih (by simpa using hS) (by simpa using hS _ hi) h
      exact ⟨hsame.trans h1,h2⟩
    · obtain ⟨rfl,rfl⟩ := Prod.mk.inj (Option.some.inj h)
      exact ⟨hsame,hi⟩

/-- Between two slots of the ring the switch moves `current` and nothing of the queue. -/
theorem nextProcess_same {S : ℤ → Prop} (hl : s.changeLock = 0) (hS : ∀ k, S k → S (s.link k))
    (hc : S (s.link s.current)) (h : s.nextProcess = some s') :
    S s'.current ∧ SameQueue { s with current := s'.current } s' := by
  rw [nextProcess,if_neg (by rw [hl]; decide)] at h
  simp only [Option.bind_eq_bind,Option.bind_eq_some_iff] at h
  obtain ⟨s1,h1,⟨next,s2⟩,h2,p,hp,h⟩ := h
  have hd := demoteCurrent_same h1
  rw [← hd.link] at hS hc
  rw [← hd.current] at hc
  obtain ⟨hf,hn⟩ := findProcess_same hS hc h2
  have hp := SameQueue.setProcess (p := p.setThreadState p.currentThread .running)
    (live_of_process hp)
  have hall := hd.trans (hf.trans hp)
  rw [← Option.some.inj h]
  exact ⟨hn,hall.link,hall.live,rfl,hall.quantity,hall.space,hall.changeLock⟩

/-- A queue that is linked but whose `current` may be off it. -/
structure Linked (s : Scheduler) (slots : List ℤ) : Prop where
  live : ∀ i, i ∈ slots ↔ InTable i ∧ s.Live i
  ring : ∃ c rest, Ring s.link c rest ∧ (c::rest).Perm slots
  quantity : s.processQuantity = slots.length

theorem Linked.queued (h : s.Linked slots) (hc : s.current ∈ slots) : ∃ slots, s.Queued slots := by
  obtain ⟨c,rest,hr,hp⟩ := h.ring
  obtain ⟨rest',hr',hp'⟩ := hr.enter (hp.mem_iff.mpr hc)
  have hperm := hp'.trans hp
  refine ⟨s.current::rest',fun i => ?_,⟨rfl,hr'⟩,?_⟩
  · rw [hperm.mem_iff]
    exact h.live i
  · rw [h.quantity,hperm.length_eq]

theorem Queued.linked {c : ℤ} {rest : List ℤ} (h : s.Queued (c::rest)) : s.Linked (c::rest) :=
  ⟨h.live,⟨c,rest,h.cycle.2,List.Perm.refl _⟩,h.quantity⟩

theorem Linked.next_mem (h : s.Linked slots) (hi : i ∈ slots) : s.link i ∈ slots := by
  obtain ⟨c,rest,hr,hp⟩ := h.ring
  exact hp.mem_iff.mp (hr.next_mem (hp.mem_iff.mpr hi))

theorem Linked.same (h : s.Linked slots) (hs : SameQueue s s') : s'.Linked slots := by
  refine ⟨fun i => ?_,?_,by rw [hs.quantity,h.quantity]⟩
  · rw [hs.live i]
    exact h.live i
  · rw [hs.link]
    exact h.ring

theorem Linked.nextProcess (h : s.Linked slots) (hl : s.changeLock = 0)
    (hc : s.link s.current ∈ slots) (hn : s.nextProcess = some s') :
    (∃ slots, s'.Queued slots) ∧ SameQueue { s with current := s'.current } s' := by
  obtain ⟨hmem,hsame⟩ := nextProcess_same (S := (· ∈ slots)) hl (fun k => h.next_mem) hc hn
  have hl : Linked { s with current := s'.current } slots := ⟨h.live,h.ring,h.quantity⟩
  exact ⟨(hl.same hsame).queued hmem,hsame⟩

theorem Queued.nodup (h : s.Queued slots) : slots.Nodup := by
  cases slots with
  | nil => exact List.nodup_nil
  | cons c rest => exact h.cycle.2.nodup

/-- The occupied slots of the table, as the search for a free one sees them. -/
theorem Queued.card (h : s.Queued slots) : (SlotTable.occupied
    (fun n : RoundRobinNode => n.process.isSome) maxProcesses (fun i => s.processes i)).card =
      slots.length := by
  have himage : (SlotTable.occupied (fun n : RoundRobinNode => n.process.isSome) maxProcesses
      (fun i : ℕ => s.processes i)).image Int.ofNat = slots.toFinset := by
    ext i
    rw [List.mem_toFinset,h.live,Finset.mem_image]
    constructor
    · rintro ⟨k,hk,rfl⟩
      obtain ⟨hlt,hlive⟩ := SlotTable.mem_occupied.mp hk
      exact ⟨⟨Int.natCast_nonneg k,Int.ofNat_lt.mpr hlt⟩,hlive⟩
    · rintro ⟨⟨h0,hlt⟩,hlive⟩
      obtain ⟨k,rfl⟩ := Int.eq_ofNat_of_zero_le h0
      exact ⟨k,SlotTable.mem_occupied.mpr ⟨Int.ofNat_lt.mp hlt,hlive⟩,rfl⟩
  rw [← List.toFinset_card_of_nodup h.nodup,← himage]
  exact (Finset.card_image_of_injective _ (fun _ _ => Int.ofNat.inj)).symm

theorem Queued.length_le (h : s.Queued slots) : slots.length ≤ maxProcesses := by
  rw [← h.card]
  exact SlotTable.occupied_card_le

theorem Queued.quantity_le (h : s.Queued slots) : s.processQuantity ≤ maxProcesses := by
  rw [h.quantity]
  exact Int.ofNat_le.mpr h.length_le

/-- The search answers an empty slot, or the sentinel for a full table. -/
theorem Queued.findFirst (h : s.Queued slots) :
    (slots.length = maxProcesses ∧ s.findFirstAvailableSpace = -1) ∨
      (slots.length < maxProcesses ∧ InTable s.findFirstAvailableSpace ∧
        ¬ s.Live s.findFirstAvailableSpace) := by
  cases hf : SlotTable.firstFree (fun n : RoundRobinNode => n.process.isSome) maxProcesses
      (fun i => s.processes i) with
  | none =>
    refine Or.inl ⟨?_,by rw [findFirstAvailableSpace,hf]; rfl⟩
    rw [← h.card]
    exact SlotTable.firstFree_eq_none_iff.mp hf
  | some k =>
    obtain ⟨hlt,hfree⟩ := SlotTable.firstFree_some hf
    have hk : s.findFirstAvailableSpace = k := by rw [findFirstAvailableSpace,hf]; rfl
    refine Or.inr ⟨?_,?_,?_⟩
    · refine lt_of_le_of_ne h.length_le (fun he => ?_)
      rw [← h.card,← SlotTable.firstFree_eq_none_iff,hf] at he
      cases he
    · rw [hk]
      exact ⟨Int.natCast_nonneg k,Int.ofNat_lt.mpr hlt⟩
    · rw [hk]
      exact hfree

theorem addProcess_full (h : s.processQuantity = maxProcesses) : s.addProcess p = (s,-1) := by
  rw [addProcess,if_neg (not_not.mpr h)]

theorem processQuantity_addProcess (hq : s.processQuantity ≠ maxProcesses) :
    (s.addProcess p).1.processQuantity = s.processQuantity+1 := by
  rw [addProcess,if_pos hq]

theorem Queued.empty (h : s.Queued slots) (h0 : s.processQuantity = 0) : slots = [] :=
  List.eq_nil_of_length_eq_zero (Int.ofNat.inj (h.quantity.symm.trans h0))

theorem Queued.current_mem (h : s.Queued slots) (h0 : s.processQuantity ≠ 0) :
    s.current ∈ slots := by
  cases slots with
  | nil => exact absurd h.quantity h0
  | cons c rest =>
    rw [h.cycle.1]
    exact List.mem_cons_self

theorem place_empty (h : s.Queued slots) (h0 : s.processQuantity = 0) :
    (∀ i, i ∈ [0] ↔ InTable i ∧ (s.place p).Live i) ∧ (s.place p).Cycle [0] := by
  have hnone : ∀ i, InTable i → ¬ s.Live i := by
    intro i hi hlive
    have hmem := (h.live i).mpr ⟨hi,hlive⟩
    rw [h.empty h0] at hmem
    cases hmem
  have hp : s.place p = ({ s with current := 0 }.setNext 0 0).setProcess 0 (some p) := if_pos h0
  rw [hp]
  refine ⟨fun i => ?_,rfl,Ring.single ?_⟩
  · rw [Live,process?_setProcess,List.mem_singleton]
    split
    · rename_i hi
      rw [hi]
      exact ⟨fun _ => ⟨⟨Int.le_refl 0,by decide⟩,rfl⟩,fun _ => rfl⟩
    · rename_i hi
      rw [process?_setNext]
      exact ⟨fun he => absurd he hi,fun ⟨ht,hl⟩ => absurd hl (hnone i ht)⟩
  · rw [link_setProcess,link_setNext,Function.update_self]

theorem place_behind {c : ℤ} {rest : List ℤ} (h : s.Queued (c::rest))
    (ht : InTable s.firstAvailableSpace) (hf : ¬ s.Live s.firstAvailableSpace) :
    (∀ i, i ∈ c::s.firstAvailableSpace::rest ↔ InTable i ∧ (s.place p).Live i) ∧
      (s.place p).Cycle (c::s.firstAvailableSpace::rest) := by
  have h0 : s.processQuantity ≠ 0 := by
    rw [h.quantity,List.length_cons]
    exact Int.ofNat_ne_zero.mpr (Nat.succ_ne_zero _)
  have hp : s.place p = ((s.setNext s.current s.firstAvailableSpace).setProcess
    s.firstAvailableSpace (some p)).setNext s.firstAvailableSpace (s.link s.current) := if_neg h0
  have hmem : s.firstAvailableSpace ∉ c::rest := fun hm => hf ((h.live _).mp hm).2
  rw [hp]
  refine ⟨fun i => ?_,h.cycle.1,?_⟩
  · rw [Live,process?_setNext,process?_setProcess,process?_setNext]
    by_cases hi : i = s.firstAvailableSpace
    · rw [if_pos hi]
      exact ⟨fun _ => ⟨hi ▸ ht,rfl⟩,fun _ => by simp [hi]⟩
    · have hcons : i ∈ c::s.firstAvailableSpace::rest ↔ i ∈ c::rest := by simp [hi]
      rw [if_neg hi,hcons]
      exact h.live i
  · rw [link_setNext,link_setProcess,link_setNext,h.cycle.1]
    exact h.cycle.2.insert hmem

/-- Adding to a queue that is not full gives a queue, and the cached slot is right. -/
theorem addProcess_ok (hs : s.Queued slots) (hq : s.processQuantity < maxProcesses)
    (ht : s.processQuantity ≠ 0 → InTable s.firstAvailableSpace ∧ ¬ s.Live s.firstAvailableSpace)
    (hl : s.changeLock = 0) :
    ∃ slots', (s.addProcess p).1.Queued slots' ∧
      (s.addProcess p).1.firstAvailableSpace = (s.addProcess p).1.findFirstAvailableSpace ∧
        (s.addProcess p).1.changeLock = 0 := by
  have hadd : (s.addProcess p).1 = { s.place p with
      firstAvailableSpace := (s.place p).findFirstAvailableSpace
      processQuantity := s.processQuantity+1 } := by
    rw [addProcess,if_pos hq.ne]
  rw [hadd]
  cases slots with
  | nil =>
    have h0 : s.processQuantity = 0 := hs.quantity
    obtain ⟨hlive,hcycle⟩ := place_empty (p := p) hs h0
    refine ⟨[0],⟨hlive,hcycle,?_⟩,rfl,?_⟩
    · rw [h0]
      rfl
    · simpa [place,h0,setProcess,setNext] using hl
  | cons c rest =>
    have h0 : s.processQuantity ≠ 0 := by
      rw [hs.quantity]
      exact Int.natCast_ne_zero.mpr (List.length_pos_of_mem List.mem_cons_self).ne'
    obtain ⟨ht,hf⟩ := ht h0
    obtain ⟨hlive,hcycle⟩ := place_behind (p := p) hs ht hf
    refine ⟨c::s.firstAvailableSpace::rest,⟨hlive,hcycle,?_⟩,rfl,?_⟩
    · rw [hs.quantity]
      simp
    · simp only [place]
      split <;> simpa [setProcess,setNext] using hl

/-- Where a slot is free, one is found. -/
theorem findFirst_of_free (ht : InTable i) (hf : ¬ s.Live i) :
    InTable s.findFirstAvailableSpace ∧ ¬ s.Live s.findFirstAvailableSpace := by
  unfold findFirstAvailableSpace
  cases hx : SlotTable.firstFree (fun n : RoundRobinNode => n.process.isSome) maxProcesses
      (fun i => s.processes i) with
  | none =>
    obtain ⟨k,rfl⟩ := Int.eq_ofNat_of_zero_le ht.1
    have hused := List.find?_eq_none.mp hx k (List.mem_range.mpr (Int.ofNat_lt.mp ht.2))
    exact absurd (by simpa [Live,process?,Option.isSome_iff_ne_none] using hused) hf
  | some k =>
    obtain ⟨hlt,hfree⟩ := SlotTable.firstFree_some hx
    exact ⟨⟨Int.natCast_nonneg k,Int.ofNat_lt.mpr hlt⟩,by simpa [Live,process?] using hfree⟩

/-- A process that has been linked in right behind the current one, whatever the cached slot. -/
structure Placed (s : Scheduler) (p : ProcessRecord) (s' : Scheduler) : Prop where
  process : ∀ i, s'.process? i = if i = s.firstAvailableSpace then some p else s.process? i
  current : s'.current = s.current
  link : s'.link = Function.update (Function.update s.link s.current s.firstAvailableSpace)
    s.firstAvailableSpace (s.link s.current)
  space : s'.firstAvailableSpace = s'.findFirstAvailableSpace
  quantity : s'.processQuantity = s.processQuantity+1
  changeLock : s'.changeLock = s.changeLock

theorem addProcess_placed (p : ProcessRecord) (h0 : s.processQuantity ≠ 0)
    (hq : s.processQuantity ≠ maxProcesses) : Placed s p (s.addProcess p).1 := by
  have hadd : (s.addProcess p).1 = { (s.setNext s.current s.firstAvailableSpace).setProcess
      s.firstAvailableSpace (some p) |>.setNext s.firstAvailableSpace (s.link s.current) with
      firstAvailableSpace := (s.place p).findFirstAvailableSpace
      processQuantity := s.processQuantity+1 } := by
    rw [addProcess,if_pos hq,place,if_neg h0]
  rw [hadd]
  refine ⟨fun i => ?_,rfl,?_,?_,rfl,rfl⟩
  · change (((s.setNext s.current s.firstAvailableSpace).setProcess s.firstAvailableSpace
      (some p)).setNext s.firstAvailableSpace (s.link s.current)).process? i = _
    rw [process?_setNext,process?_setProcess,process?_setNext]
  · change (((s.setNext s.current s.firstAvailableSpace).setProcess s.firstAvailableSpace
      (some p)).setNext s.firstAvailableSpace (s.link s.current)).link = _
    rw [link_setNext,link_setProcess,link_setNext]
  · rw [place,if_neg h0]
    rfl

/-- The next process is the new one, and behind it comes who has been next. -/
theorem Placed.next (h : Placed s p s') (hc : s.current ≠ s.firstAvailableSpace) :
    s'.link s'.current = s.firstAvailableSpace ∧
      s'.link s.firstAvailableSpace = s.link s.current := by
  rw [h.link,h.current,Function.update_of_ne hc,Function.update_self,Function.update_self]
  exact ⟨rfl,rfl⟩

theorem addSafe (hs : s.Queued slots) (hspace : s.processQuantity < maxProcesses →
      InTable s.firstAvailableSpace ∧ ¬ s.Live s.firstAvailableSpace)
    (h : (s.addProcess p).1.processes i ≠ s.processes i) :
    InTable i ∧ (s.Live i → (s.addProcess p).1.process? i = s.process? i) := by
  by_cases hq : s.processQuantity = maxProcesses
  · rw [addProcess_full hq] at h
    exact absurd rfl h
  have hlt : s.processQuantity < maxProcesses := by
    refine lt_of_le_of_ne ?_ hq
    rw [hs.quantity]
    exact Int.ofNat_le.mpr hs.length_le
  have hadd : (s.addProcess p).1.processes = (s.place p).processes := by
    rw [addProcess,if_pos hq]
  have hproc : (s.addProcess p).1.process? i = (s.place p).process? i := by
    rw [process?,hadd,process?]
  rw [hadd] at h
  rw [hproc]
  by_cases h0 : s.processQuantity = 0
  · have hi : i = 0 := by
      by_contra hi
      simp [place,h0,setProcess,setNext,hi] at h
    have ht : InTable i := by rw [hi]; exact ⟨Int.le_refl 0,by decide⟩
    refine ⟨ht,fun hlive => ?_⟩
    have hmem := (hs.live i).mpr ⟨ht,hlive⟩
    rw [hs.empty h0] at hmem
    cases hmem
  · obtain ⟨ht,hf⟩ := hspace hlt
    by_cases hi : i = s.firstAvailableSpace
    · rw [hi]
      exact ⟨ht,fun hlive => absurd hlive hf⟩
    · have hc : i = s.current := by
        by_contra hc
        simp [place,h0,setProcess,setNext,hi,hc] at h
      refine ⟨hc ▸ ((hs.live _).mp (hs.current_mem h0)).1,fun _ => ?_⟩
      rw [place,if_neg h0,process?_setNext,process?_setProcess,if_neg hi,process?_setNext]

theorem Queued.runQueue (hs : s.Queued slots) (hspace : s.processQuantity < maxProcesses →
    InTable s.firstAvailableSpace ∧ ¬ s.Live s.firstAvailableSpace) : s.RunQueue :=
  ⟨⟨slots,hs⟩,hspace,fun _ _ => addSafe hs hspace⟩

theorem Ok.addProcess (h : s.Ok) : (s.addProcess p).1.Ok := by
  obtain ⟨slots,hs⟩ := h.queue.queued
  by_cases hq : s.processQuantity = maxProcesses
  · rw [addProcess_full hq]
    exact h
  have hlt : s.processQuantity < maxProcesses := by
    refine lt_of_le_of_ne ?_ hq
    rw [hs.quantity]
    exact Int.ofNat_le.mpr hs.length_le
  obtain ⟨slots',ht,hfirst,hl⟩ :=
    addProcess_ok (p := p) hs hlt (fun _ => h.queue.space hlt) h.unlocked
  rcases ht.findFirst with ⟨hlen,hm⟩ | ⟨hlen,htable,hlive⟩
  · refine ⟨ht.runQueue (fun hx => ?_),fun _ => hfirst.trans hm,hl⟩
    rw [ht.quantity,hlen] at hx
    exact absurd hx (lt_irrefl _)
  · refine ⟨ht.runQueue (fun _ => by rw [hfirst]; exact ⟨htable,hlive⟩),fun hx => ?_,hl⟩
    rw [ht.quantity] at hx
    exact absurd (Int.ofNat.inj hx) hlen.ne

/-- The search answers a link into a slot with the process looked for. -/
theorem findRemoved_spec {S : ℤ → Prop} {pid first previous toRemove a b : ℤ} {n : ℕ}
    (hS : ∀ k, S k → S (s.link k)) (hp : S previous) (hl : s.link previous = toRemove)
    (h : s.findRemoved pid first n previous toRemove = some (some (a,b))) :
    S a ∧ s.link a = b ∧ ∃ p, s.process? b = some p ∧ p.pid = pid := by
  induction n generalizing previous toRemove with
  | zero => cases h
  | succ n ih =>
    simp only [findRemoved,Option.bind_eq_bind,Option.bind_eq_some_iff] at h
    obtain ⟨p,hpr,h⟩ := h
    split at h
    · rename_i hpid
      obtain ⟨rfl,rfl⟩ := Prod.mk.inj (Option.some.inj (Option.some.inj h))
      exact ⟨hp,hl,p,hpr,hpid⟩
    · split at h
      · cases h
      · exact ih (hl ▸ hS _ hp) rfl h

def Absent (s : Scheduler) (pid : ℤ) : Prop :=
  ∀ i p, InTable i → s.process? i = some p → p.pid ≠ pid

/-- A search that returns early has been all the way around. -/
theorem findRemoved_none {pid first previous toRemove : ℤ} {js : List ℤ} {n : ℕ}
    (hp : Path s.link toRemove (toRemove::js) first) (hf : first ∉ js)
    (h : s.findRemoved pid first n previous toRemove = some none) :
    ∀ i ∈ toRemove::js, ∀ p, s.process? i = some p → p.pid ≠ pid := by
  induction n generalizing previous toRemove js with
  | zero => cases h
  | succ n ih =>
    simp only [findRemoved,Option.bind_eq_bind,Option.bind_eq_some_iff] at h
    obtain ⟨p,hpr,h⟩ := h
    split at h
    · cases h
    rename_i hpid
    have hhead : ∀ p', s.process? toRemove = some p' → p'.pid ≠ pid := by
      intro p' hp'
      rwa [← Option.some.inj (hpr.symm.trans hp')]
    cases js with
    | nil =>
      intro i hi
      rw [List.mem_singleton.mp hi]
      exact hhead
    | cons k ks =>
      have hk : s.link toRemove = k := hp.2.1
      have hkf : k ≠ first := fun he => hf (he ▸ List.mem_cons_self)
      rw [hk,if_neg hkf] at h
      have htail := ih ⟨rfl,hp.2.2⟩ (fun hm => hf (List.mem_cons_of_mem _ hm)) h
      intro i hi
      rcases List.mem_cons.mp hi with rfl | hi
      · exact hhead
      · exact htail i hi

structure Removed (s : Scheduler) (pid : ℤ) (s' : Scheduler) (r : ℤ) : Prop where
  table : InTable r
  found : ∃ p, s.process? r = some p ∧ p.pid = pid
  queued : ∃ slots, s'.Queued slots
  live : ∀ i, s'.Live i ↔ s.Live i ∧ i ≠ r
  quantity : s'.processQuantity+1 = s.processQuantity
  space : s'.firstAvailableSpace = s.firstAvailableSpace ∨
    (s.firstAvailableSpace > r ∧ s'.firstAvailableSpace = r)
  changeLock : s'.changeLock = s.changeLock

theorem live_unlink {a b : ℤ} : (s.unlink a b).Live i ↔ s.Live i ∧ i ≠ b := by
  rw [Live,process?_unlink]
  split
  · rename_i h
    simp [h]
  · rename_i h
    exact ⟨fun hl => ⟨hl,h⟩,And.left⟩

/-- Taking out the slot behind `a` leaves the others linked. -/
theorem Linked.unlink {a b : ℤ} {ys : List ℤ} (h : s.Linked slots)
    (hr : Ring s.link a (b::ys)) (hp : (a::b::ys).Perm slots) :
    (s.unlink a b).Linked (a::ys) := by
  refine ⟨fun i => ?_,⟨a,ys,?_,List.Perm.refl _⟩,?_⟩
  · have hnd := hr.nodup
    rw [live_unlink,← and_assoc,← h.live,← hp.mem_iff]
    simp only [List.nodup_cons,List.mem_cons,not_or] at hnd ⊢
    constructor
    · rintro (rfl | hi)
      · exact ⟨Or.inl rfl,hnd.1.1⟩
      · exact ⟨Or.inr (Or.inr hi),fun he => hnd.2.1 (he ▸ hi)⟩
    · rintro ⟨rfl | rfl | hi,hne⟩
      · exact Or.inl rfl
      · exact absurd rfl hne
      · exact Or.inr hi
  · rw [link_unlink]
    exact hr.remove
  · have hlen := hp.length_eq
    change s.processQuantity-1 = _
    rw [h.quantity,← hlen]
    simp

/-- Slot `r` has been emptied and linked out. The current process stays the one it was, unless
it has been in the slot. -/
structure Detached (s : Scheduler) (r : ℤ) (b : Bool) (s' : Scheduler) : Prop where
  table : InTable r
  process : ∀ i, s'.process? i = if i = r then none else s.process? i
  queued : b = false → ∃ slots, s'.Queued slots
  linked : b = true → ∃ slots, s'.Linked slots ∧ s'.link s'.current ∈ slots
  current : r ≠ s.current → b = false ∧ s'.current = s.current
  gone : r = s.current → ¬ s'.Live s'.current
  quantity : s'.processQuantity+1 = s.processQuantity
  space : s'.firstAvailableSpace = s.firstAvailableSpace ∨
    (s.firstAvailableSpace > r ∧ s'.firstAvailableSpace = r)
  changeLock : s'.changeLock = s.changeLock

theorem Detached.live {b : Bool} (h : Detached s r b s') : s'.Live i ↔ s.Live i ∧ i ≠ r := by
  rw [Live,h.process]
  split
  · rename_i hi
    simp [hi]
  · rename_i hi
    exact ⟨fun hl => ⟨hl,hi⟩,And.left⟩

theorem detached_sole {rest : List ℤ} (hs : s.Queued (s.current::rest))
    (hc : s.current = s.link s.current) : Detached s s.current false { s.setProcess s.current none with
      current := 0
      processQuantity := s.processQuantity-1 } := by
  have hrest := hs.cycle.2.alone hc.symm
  subst hrest
  have hq : s.processQuantity = 1 := hs.quantity
  generalize hs' : ({ s.setProcess s.current none with
    current := 0
    processQuantity := s.processQuantity-1 } : Scheduler) = s'
  have hprocess : ∀ i, s'.process? i = if i = s.current then none else s.process? i := by
    intro i
    rw [← hs']
    exact process?_setProcess
  have hempty : ∀ i, ¬ (InTable i ∧ s'.Live i) := by
    rintro i ⟨ht,hl⟩
    rw [Live,hprocess] at hl
    split at hl
    · cases hl
    · rename_i hi
      exact hi (List.mem_singleton.mp ((hs.live i).mpr ⟨ht,hl⟩))
  have hqueued : s'.Queued [] := by
    refine ⟨fun i => ⟨fun hm => (by cases hm),fun hi => (hempty i hi).elim⟩,trivial,?_⟩
    rw [← hs',hq]
    rfl
  refine ⟨((hs.live _).mp List.mem_cons_self).1,hprocess,fun _ => ⟨_,hqueued⟩,
    fun hb => (by cases hb),fun hne => absurd rfl hne,fun _ hl => ?_,?_,Or.inl ?_,?_⟩
  · refine hempty _ ⟨?_,hl⟩
    rw [← hs']
    exact (by decide : InTable 0)
  · rw [← hs']
    exact Int.sub_add_cancel _ _
  · rw [← hs']
    rfl
  · rw [← hs']
    rfl

theorem detached_unlink {a b : ℤ} {ys : List ℤ} (h : s.Linked slots) (hr : Ring s.link a (b::ys))
    (hp : (a::b::ys).Perm slots) (hc : s.current ∈ slots) :
    Detached s b (decide (s.current = b)) (s.unlink a b) := by
  have hba : b ≠ a := fun he => (List.nodup_cons.mp hr.nodup).1 (he ▸ List.mem_cons_self)
  have hlinked := h.unlink hr hp
  refine ⟨((h.live b).mp (hp.mem_iff.mp (by simp))).1,fun i => process?_unlink,fun hb => ?_,
    fun hb => ?_,fun hne => ⟨decide_eq_false hne.symm,rfl⟩,fun he => ?_,Int.sub_add_cancel _ _,?_,rfl⟩
  · refine hlinked.queued ?_
    have hcur := hp.mem_iff.mpr hc
    show s.current ∈ a::ys
    simp only [List.mem_cons] at hcur ⊢
    rcases hcur with hx | hx | hx
    · exact Or.inl hx
    · exact absurd hx (of_decide_eq_false hb)
    · exact Or.inr hx
  · refine ⟨_,hlinked,?_⟩
    show (s.unlink a b).link s.current ∈ _
    rw [of_decide_eq_true hb,link_unlink,Function.update_of_ne hba]
    exact hr.skip_mem
  · show ¬ (s.unlink a b).Live s.current
    rw [live_unlink]
    exact fun hx => hx.2 he.symm
  · simp only [Scheduler.unlink]
    split
    · rename_i hgt
      exact Or.inr ⟨hgt,rfl⟩
    · exact Or.inl rfl

theorem detach_cases {b : Bool} (hs : s.Queued slots) (h : s.detach q = some (b,s')) :
    (b = false ∧ s' = s ∧ s.Absent q.pid) ∨
      ∃ r p, s.process? r = some p ∧ p.pid = q.pid ∧ Detached s r b s' := by
  unfold detach at h
  split at h
  · rename_i h0
    cases h
    refine Or.inl ⟨rfl,rfl,fun i p hi hp => ?_⟩
    have hmem := (hs.live i).mpr ⟨hi,live_of_process hp⟩
    rw [hs.empty h0] at hmem
    cases hmem
  rename_i h0
  have hmem := hs.current_mem h0
  obtain ⟨rest,rfl⟩ : ∃ rest, slots = s.current::rest := by
    cases slots with
    | nil => cases hmem
    | cons c rest => exact ⟨rest,by rw [hs.cycle.1]⟩
  have hlinked := hs.linked
  split at h
  · rename_i hsole
    obtain ⟨p,hp,hpid⟩ := Option.map_eq_some_iff.mp hsole.2
    obtain ⟨rfl,rfl⟩ := Prod.mk.inj (Option.some.inj h)
    exact Or.inr ⟨s.current,p,hp,hpid,detached_sole hs hsole.1⟩
  rename_i hsole
  obtain ⟨found,hf,h⟩ := Option.map_eq_some_iff.mp h
  cases found with
  | none =>
    obtain ⟨rfl,rfl⟩ := Prod.mk.inj h
    refine Or.inl ⟨rfl,rfl,fun i p hi hp => ?_⟩
    have hring := hs.cycle.2
    obtain ⟨j,js,hjs⟩ := List.exists_cons_of_ne_nil (l := rest++[s.current]) (by simp)
    have horder := hjs ▸ hring.order
    have hnd := hjs ▸ hring.order_nodup
    have hij : i ∈ j::js := by
      have hmem := (hs.live i).mpr ⟨hi,live_of_process hp⟩
      rw [← hjs]
      simpa [or_comm] using hmem
    obtain rfl : s.link s.current = j := horder.1
    exact findRemoved_none horder (List.nodup_cons.mp hnd).1 hf i hij p hp
  | some ab =>
    obtain ⟨a,b⟩ := ab
    obtain ⟨rfl,rfl⟩ := Prod.mk.inj h
    obtain ⟨ha,hab,p,hp,hpid⟩ :=
      findRemoved_spec (S := (· ∈ s.current::rest)) (fun _ => hlinked.next_mem) hmem rfl hf
    obtain ⟨rest',hr,hperm⟩ := hs.cycle.2.enter ha
    cases rest' with
    | nil =>
      -- the ring is one slot, which the branch for it has not removed
      obtain rfl : s.current = a := by
        simpa using hperm.mem_iff.mpr (List.mem_cons_self (a := s.current) (l := rest))
      rw [hr.next_eq] at hab
      refine absurd ⟨hr.next_eq.symm,?_⟩ hsole
      rw [hab,hp,Option.map_some,hpid]
    | cons j ys =>
      obtain rfl : j = b := hr.path.1.symm.trans hab
      exact Or.inr ⟨j,p,hp,hpid,detached_unlink hlinked hr hperm hmem⟩

/-- The switch behind a removal, where there is one. -/
theorem Detached.removed {b : Bool} {d : Scheduler} (h : Detached s r b d) (hp : s.process? r = some p)
    (hl : s.changeLock = 0) (hn : (if b then d.nextProcess else some d) = some s') :
    Removed s p.pid s' r := by
  cases b with
  | false =>
    obtain rfl := Option.some.inj hn
    exact ⟨h.table,⟨p,hp,rfl⟩,h.queued rfl,fun _ => h.live,h.quantity,h.space,h.changeLock⟩
  | true =>
    obtain ⟨slots',hlinked,hnext⟩ := h.linked rfl
    obtain ⟨hq,hsame⟩ := hlinked.nextProcess (h.changeLock.trans hl) hnext hn
    refine ⟨h.table,⟨p,hp,rfl⟩,hq,fun i => (hsame.live i).trans h.live,?_,?_,
      hsame.changeLock.trans h.changeLock⟩
    · rw [hsame.quantity]
      exact h.quantity
    · rw [hsame.space]
      exact h.space

theorem removeProcess_cases (hs : s.Queued slots) (hl : s.changeLock = 0)
    (h : s.removeProcess (some q) = some s') :
    (s' = s ∧ s.Absent q.pid) ∨ ∃ r, Removed s q.pid s' r := by
  rw [removeProcess_detach] at h
  obtain ⟨⟨b,d⟩,hd,h⟩ := Option.bind_eq_some_iff.mp h
  obtain ⟨rfl,hsame,ha⟩ | ⟨r,p,hp,hpid,hdet⟩ := detach_cases hs hd
  · exact Or.inl ⟨(Option.some.inj h).symm.trans hsame,ha⟩
  · rw [← hpid]
    exact Or.inr ⟨r,hdet.removed hp hl h⟩

end Scheduler
end ComplexOS
