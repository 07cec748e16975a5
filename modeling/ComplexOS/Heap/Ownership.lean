import ComplexOS.Heap.HeapRuns
import Mathlib.Data.List.Perm.Basic

/-! # Blocks of one owner

The live blocks are divided between one owner and everybody else. A release at an address
takes nothing away from the others exactly if a block of the owner starts there, or none.
-/
namespace ComplexOS.BuddyAllocator
open BinaryNodes

variable {s s' : RunState} {a : ℕ} {b c : Block} {mine others : List Block}

theorem isAllocatedPageRecursive_true {h : Heap} {n : ℕ} {i : ℤ}
    (he : isAllocatedPageRecursive h a n i = some true) :
    ∃ k, 0 < k ∧ k ≤ heapSize ∧ h.blockUsage k = .allocated ∧ h.memoryBase k = a := by
  induction n generalizing i with
  | zero => cases he
  | succ n ih =>
    unfold isAllocatedPageRecursive at he
    split at he
    · cases he
    · obtain ⟨u,hu,he⟩ := Option.bind_eq_some_iff.mp he
      obtain ⟨hin,hu⟩ := Option.ite_none_right_eq_some.mp hu
      split at he
      · rename_i hx
        exact ⟨_,hin.1,hin.2,(Option.some.inj hu).trans hx.1,hx.2⟩
      · split at he
        · exact ih he
        · cases he

theorem RunOk.address_inj (hs : RunOk s) (hb : b ∈ s.live) (hc : c ∈ s.live)
    (he : b.address = c.address) : b = c := by
  obtain ⟨hb1,hb2,hb3,hb4⟩ := hs.live b hb
  obtain ⟨hc1,hc2,hc3,hc4⟩ := hs.live c hc
  -- one base for two allocated nodes: both are above the leaf of that base
  have hab := (base_mem_block hb1 hb2).2
  have hac := (base_mem_block hc1 hc2).2
  rw [← hb4,he,hc4] at hab
  have hnode : b.node = c.node := (hab.linear hac).elim
    (fun h => hs.heap.tree.allocated_eq hb1 hc2 h hb3 hc3)
    (fun h => (hs.heap.tree.allocated_eq hc1 hb2 h hc3 hb3).symm)
  cases b
  cases c
  simp only at he hnode
  rw [he,hnode]

theorem RunOk.live_nodup (hs : RunOk s) : s.live.Nodup :=
  List.Pairwise.of_map Block.node (fun _ _ hne he => hne (congrArg Block.node he)) hs.nodup

theorem RunOk.address_inArena (hs : RunOk s) (hb : b ∈ s.live) : InArena b.address := by
  obtain ⟨h1,h2,-,h4⟩ := hs.live b hb
  rw [h4]
  exact (base_mem_block h1 h2).1

theorem answer_of_bind {h h' : Heap} {o : Option Bool} {u : Option Usage} {r : Option Heap} {freed : Bool}
    (hf : (o.bind fun b => if b = true then u.bind (fun _ => r.bind (fun x => some (true,x)))
      else some (false,h)) = some (freed,h')) : o = some freed := by
  cases o with
  | none => cases hf
  | some b =>
    cases b with
    | false => simp_all
    | true =>
      cases u with
      | none => cases hf
      | some _ =>
        cases r with
        | none => cases hf
        | some _ => simp_all

theorem freeMemory_answer {h h' : Heap} {freed : Bool} (hf : freeMemory a h = some (freed,h')) :
    isAllocatedPage h a = some freed := by
  unfold freeMemory at hf
  exact answer_of_bind hf

theorem freeMemory_unallocated {h : Heap} (he : isAllocatedPage h a = some false) :
    freeMemory a h = some (false,h) := by
  simp only [freeMemory,he,Option.bind_eq_bind,Option.bind_some]
  rw [if_neg Bool.false_ne_true]
  rfl

theorem serve_freeMemory {h' : Heap} {freed : Bool} (hf : freeMemory a s.heap = some (freed,h')) :
    serve s (.freeMemory a) =
      some ⟨h',if freed then s.live.filter (·.address ≠ a) else s.live⟩ := by
  simp only [serve,hf,Option.bind_eq_bind,Option.bind_some]
  rfl

theorem serve_free_some (hx : serve s (.freeMemory a) = some s') :
    ∃ freed, isAllocatedPage s.heap a = some freed := by
  cases hf : freeMemory a s.heap with
  | none => simp [serve,hf] at hx
  | some x => exact ⟨x.1,freeMemory_answer hf⟩

theorem RunOk.isAllocatedPage_live (hs : RunOk s) (hb : b ∈ s.live) :
    isAllocatedPage s.heap b.address = some true := by
  obtain ⟨h',hf,-⟩ := hs.free_live hb
  exact freeMemory_answer hf

/-- `isAllocatedPage` finds the blocks of the list and no others. -/
theorem RunOk.isAllocatedPage_true (hs : RunOk s) (he : isAllocatedPage s.heap a = some true) :
    ∃ b ∈ s.live, b.address = a := by
  obtain ⟨k,hk,hle,hal,hbase⟩ := isAllocatedPageRecursive_true he
  obtain ⟨b,hb,hbk⟩ := hs.complete k hk hle hal
  refine ⟨b,hb,?_⟩
  rw [(hs.live b hb).2.2.2,hbk,← hbase]
  exact (hs.heap.base_eq hk hle hal).symm

theorem RunOk.isAllocatedPage_false (hs : RunOk s) (he : isAllocatedPage s.heap a = some false) :
    ∀ b ∈ s.live, b.address ≠ a := by
  rintro b hb rfl
  rw [hs.isAllocatedPage_live hb] at he
  cases he

theorem RunOk.isAllocatedPage_free (hs : RunOk s) (ha : InArena a) (hn : ∀ b ∈ s.live, b.address ≠ a) :
    isAllocatedPage s.heap a = some false := by
  rcases freeMemory_spec hs.heap ha with ⟨hf,-⟩ | ⟨h',n,hf,hn',hle,hal,hbase,-⟩
  · exact freeMemory_answer hf
  · obtain ⟨b,hb,hbn⟩ := hs.complete n hn' hle hal
    refine absurd ?_ (hn b hb)
    rw [(hs.live b hb).2.2.2,hbn,hbase]

theorem serve_unallocated (he : isAllocatedPage s.heap a = some false) :
    serve s (.freeMemory a) = some s := by
  exact serve_freeMemory (freeMemory_unallocated he)

theorem RunOk.filter_unallocated (hs : RunOk s) (he : isAllocatedPage s.heap a = some false) :
    s.live.filter (·.address ≠ a) = s.live :=
  List.filter_eq_self.mpr (fun b hb => decide_eq_true (hs.isAllocatedPage_false he b hb))

/-- A release that comes back has taken out the block that starts at the address. -/
theorem RunOk.serve_free (hs : RunOk s) (hx : serve s (.freeMemory a) = some s') :
    RunOk s' ∧ s'.live = s.live.filter (·.address ≠ a) := by
  obtain ⟨freed,he⟩ := serve_free_some hx
  cases freed with
  | false =>
    rw [serve_unallocated he] at hx
    cases hx
    exact ⟨hs,(hs.filter_unallocated he).symm⟩
  | true =>
    obtain ⟨b,hb,rfl⟩ := hs.isAllocatedPage_true he
    obtain ⟨h',hf,hok⟩ := hs.free_live hb
    rw [serve_freeMemory hf] at hx
    cases hx
    exact ⟨hok,rfl⟩

/-- What an allocation adds to the live blocks. -/
theorem serve_allocate {q : ℕ} (hx : serve s (.allocatePages q) = some s') :
    ∃ news, s'.live = news++s.live := by
  obtain ⟨⟨a,h⟩,-,hx⟩ := Option.bind_eq_some_iff.mp hx
  simp only at hx
  split at hx
  · cases hx
    exact ⟨[],rfl⟩
  · cases hx
    exact ⟨[_],rfl⟩

/-! ### Two shares -/

structure Divided (s : RunState) (mine others : List Block) : Prop where
  ok : RunOk s
  blocks : s.live.Perm (mine++others)

/-- A release at the address concerns nobody but the owner. -/
def Harmless (s : RunState) (mine : List Block) (a : ℕ) : Prop :=
  (∃ b ∈ mine, b.address = a) ∨ isAllocatedPage s.heap a = some false

theorem Divided.mem_mine (h : Divided s mine others) (hb : b ∈ mine) : b ∈ s.live :=
  h.blocks.mem_iff.mpr (List.mem_append_left _ hb)

theorem Divided.mem_others (h : Divided s mine others) (hb : b ∈ others) : b ∈ s.live :=
  h.blocks.mem_iff.mpr (List.mem_append_right _ hb)

theorem Divided.address_ne (h : Divided s mine others) (hb : b ∈ mine) (hc : c ∈ others) :
    c.address ≠ b.address := by
  intro he
  obtain rfl := h.ok.address_inj (h.mem_others hc) (h.mem_mine hb) he
  have hnd := h.blocks.nodup_iff.mp h.ok.live_nodup
  exact (List.nodup_append.mp hnd).2.2 c hb c hc rfl

theorem Harmless.ne_others (hh : Harmless s mine a) (h : Divided s mine others) :
    ∀ b ∈ others, b.address ≠ a := by
  rintro b hb rfl
  obtain ⟨c,hc,he⟩ | hn := hh
  · exact h.address_ne hc hb he.symm
  · exact h.ok.isAllocatedPage_false hn b (h.mem_others hb) rfl

theorem Divided.harmless (h : Divided s mine others) (ha : InArena a)
    (hn : ∀ b ∈ others, b.address ≠ a) : Harmless s mine a := by
  by_cases hm : ∃ b ∈ mine, b.address = a
  · exact Or.inl hm
  · refine Or.inr (h.ok.isAllocatedPage_free ha (fun b hb hba => ?_))
    rcases List.mem_append.mp (h.blocks.mem_iff.mp hb) with hb | hb
    · exact hm ⟨b,hb,hba⟩
    · exact hn b hb hba

/-- A harmless release leaves the others what they have. -/
theorem Divided.free (h : Divided s mine others) (hh : Harmless s mine a) :
    ∃ s', serve s (.freeMemory a) = some s' ∧
      Divided s' (mine.filter (·.address ≠ a)) others := by
  have hserve : ∃ s', serve s (.freeMemory a) = some s' := by
    obtain ⟨b,hb,rfl⟩ | hn := hh
    · obtain ⟨h',hf,-⟩ := h.ok.free_live (h.mem_mine hb)
      exact ⟨_,serve_freeMemory hf⟩
    · exact ⟨_,serve_unallocated hn⟩
  obtain ⟨s',hs'⟩ := hserve
  obtain ⟨hok,hlive⟩ := h.ok.serve_free hs'
  refine ⟨s',hs',hok,?_⟩
  have hothers : others.filter (·.address ≠ a) = others :=
    List.filter_eq_self.mpr (fun b hb => decide_eq_true (hh.ne_others h b hb))
  have hperm := h.blocks.filter (fun b => decide (b.address ≠ a))
  rw [List.filter_append,hothers] at hperm
  rw [hlive]
  exact hperm

/-- A release after which the others still have their blocks has been harmless. -/
theorem Divided.harmless_of_kept (h : Divided s mine others) (hs : serve s (.freeMemory a) = some s')
    (hk : ∀ b ∈ others, b ∈ s'.live) : Harmless s mine a := by
  obtain ⟨freed,he⟩ := serve_free_some hs
  cases freed with
  | false => exact Or.inr he
  | true =>
    obtain ⟨b,hb,rfl⟩ := h.ok.isAllocatedPage_true he
    rcases List.mem_append.mp (h.blocks.mem_iff.mp hb) with hm | ho
    · exact Or.inl ⟨b,hm,rfl⟩
    · have hmem := hk b ho
      rw [(h.ok.serve_free hs).2] at hmem
      exact absurd rfl (of_decide_eq_true (List.mem_filter.mp hmem).2)

/-- The others come by blocks. -/
theorem Divided.allocate (h : Divided s mine others) (hok : RunOk s') {news : List Block}
    (hlive : s'.live = news++s.live) : Divided s' mine (news++others) := by
  refine ⟨hok,?_⟩
  rw [hlive]
  refine (h.blocks.append_left news).trans ?_
  rw [← List.append_assoc,← List.append_assoc]
  exact List.perm_append_comm.append_right others

/-- The others give back a block. -/
theorem Divided.released (h : Divided s mine others) (hs : serve s (.freeMemory a) = some s')
    (hm : ∀ b ∈ mine, b.address ≠ a) : Divided s' mine (others.filter (·.address ≠ a)) := by
  obtain ⟨hok,hlive⟩ := h.ok.serve_free hs
  refine ⟨hok,?_⟩
  have hmine : mine.filter (·.address ≠ a) = mine :=
    List.filter_eq_self.mpr (fun b hb => decide_eq_true (hm b hb))
  have hperm := h.blocks.filter (fun b => decide (b.address ≠ a))
  rw [List.filter_append,hmine] at hperm
  rw [hlive]
  exact hperm

variable {h : Heap} {n : ℕ}

theorem HeapOk.isAllocatedPage_base (hok : HeapOk h) (hn : 0 < n) (hle : n ≤ heapSize)
    (ha : h.blockUsage n = .allocated) : isAllocatedPage h (nodeBase n) = some true := by
  obtain ⟨-,hno⟩ | ⟨h',m,hf,-⟩ := freeMemory_spec hok (base_mem_block hn hle).1
  · exact absurd rfl (hno n hn hle ha)
  · exact freeMemory_answer hf

/-- Some page is handed out already, or is handed out by the next request. -/
theorem HeapOk.serves (hok : HeapOk h) : ∃ h' n, (h' = h ∨
    ∃ r t, Request.Valid r ∧ serve ⟨h,[]⟩ r = some t ∧ t.heap = h') ∧ HeapOk h' ∧ 0 < n ∧ n ≤ heapSize ∧
    h'.blockUsage n = .allocated := by
  by_cases hex : ∃ n, 0 < n ∧ n ≤ heapSize ∧ h.blockUsage n = .allocated
  · obtain ⟨n,hn,hle,ha⟩ := hex
    exact ⟨h,n,Or.inl rfl,hok,hn,hle,ha⟩
  · have hroot : h.blockUsage 1 = .unused := hok.tree.unused_of_no_allocated
      (fun j hj hle hx => hex ⟨j,hj,hle,hx⟩) Nat.one_pos (by decide)
    obtain ⟨n,hc⟩ := hok.tree.firstFree_isSome Nat.one_pos (fits_root (pageLevels_le 1)) hroot
    obtain ⟨h',he,hd,hok'⟩ := allocatePages_spec hok (q := 1) le_rfl (by decide)
    have ha := hd.allocated hok hc
    have hserve : ∃ t, serve ⟨h,[]⟩ (.allocatePages 1) = some t ∧ t.heap = h' := by
      simp only [serve,he,Option.bind_eq_bind,Option.bind_some]
      split
      · exact ⟨_,rfl,rfl⟩
      · exact ⟨_,rfl,rfl⟩
    obtain ⟨t,ht,hth⟩ := hserve
    exact ⟨h',n,Or.inr ⟨.allocatePages 1,t,⟨le_rfl,by decide⟩,ht,hth⟩,hok',ha.pos,ha.inside,
      ha.marked.target⟩

end ComplexOS.BuddyAllocator
