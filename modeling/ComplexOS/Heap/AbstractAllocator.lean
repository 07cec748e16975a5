import ComplexOS.Heap.FirstFit
import ComplexOS.Library.Answers
import Mathlib.Data.Finset.Dedup
import Mathlib.Data.Finset.Insert
import Mathlib.Data.Finset.Filter

/-! # The allocator without its tree

What the allocator is for: a set of blocks that are taken, none of them inside another. A
request takes the first free block of its size, a release gives back the block that starts at
its address. The markers and the cached addresses of the two arrays are an implementation of
this set: they do depend on the history, the answers do not.
-/
namespace ComplexOS.BuddyAllocator
open BinaryNodes Answers

def Heap.answer (h : Heap) : Request → Option (ℕ × Heap)
  | .allocatePages q => allocatePages q h
  | .freeMemory a => (freeMemory a h).map (fun x => (x.1.toNat,x.2))

namespace Blocks
open Classical

def Free (taken : Finset ℕ) (n : ℕ) : Prop := ∀ k ∈ taken, ¬ Above k n ∧ ¬ Above n k

/-- The first free block of the size, from the lowest address on. -/
noncomputable def pick (taken : Finset ℕ) (q : ℕ) : Option ℕ :=
  (List.range' (2^pageLevels q) (2^pageLevels q)).find? (fun n => decide (Free taken n))

noncomputable def answer (taken : Finset ℕ) : Request → Option (ℕ × Finset ℕ)
  | .allocatePages q =>
    match pick taken q with
    | none => some (null,taken)
    | some n => some (nodeBase n,insert n taken)
  | .freeMemory a => some ((decide (∃ n ∈ taken, nodeBase n = a)).toNat,
      taken.filter (fun n => nodeBase n ≠ a))

noncomputable def nodes (s : RunState) : Finset ℕ := (s.live.map Block.node).toFinset

def Implements (h : Heap) (taken : Finset ℕ) : Prop :=
  ∃ s : RunState, s.heap = h ∧ RunOk s ∧ taken = nodes s

variable {s : RunState} {q n a : ℕ} {h : Heap} {taken : Finset ℕ}

theorem free_iff (hs : RunOk s) :
    Free (nodes s) n ↔ Unrelated s.heap.blockUsage n := by
  constructor
  · intro h k hk hle hal
    obtain ⟨b,hb,rfl⟩ := hs.complete k hk hle hal
    exact h _ (List.mem_toFinset.mpr (List.mem_map_of_mem hb))
  · intro h k hk
    obtain ⟨b,hb,rfl⟩ := List.mem_map.mp (List.mem_toFinset.mp hk)
    obtain ⟨hpos,hle,hal,-⟩ := hs.live b hb
    exact h _ hpos hle hal

theorem mem_level : n ∈ List.range' (2^pageLevels q) (2^pageLevels q) ↔
    0 < n ∧ depth n = pageLevels q := by
  have hpos : 0 < 2^pageLevels q := by positivity
  rw [List.mem_range'_1]
  constructor
  · rintro ⟨hlo,hhi⟩
    have hn : 0 < n := hpos.trans_le hlo
    refine ⟨hn,(depth_eq_iff hn).mpr (Nat.div_eq_of_lt_le (by omega) ?_)⟩
    omega
  · rintro ⟨hn,hd⟩
    have hlo := pow_depth_le hn
    have hhi := lt_pow_depth n
    rw [hd] at hlo hhi
    rw [pow_succ] at hhi
    omega

/-- The search of the tree is the search of the set. -/
theorem pick_eq (hs : RunOk s) : pick (nodes s) q = chosen q s.heap := by
  have hfree : ∀ {n}, Free (nodes s) n ↔ s.FreeNode n :=
    (free_iff hs).trans hs.freeNode_iff.symm
  cases hc : chosen q s.heap with
  | none =>
    refine List.find?_eq_none.mpr (fun n hn hx => ?_)
    obtain ⟨hpos,hd⟩ := mem_level.mp hn
    obtain ⟨k,hk,-⟩ := hs.chosen_le hpos hd (hfree.mp (of_decide_eq_true hx))
    rw [hc] at hk
    cases hk
  | some n =>
    obtain ⟨hpos,hd,hf⟩ := hs.chosen_free hc
    have hsome : (pick (nodes s) q).isSome := by
      refine List.find?_isSome.mpr ⟨n,mem_level.mpr ⟨hpos,hd⟩,decide_eq_true (hfree.mpr hf)⟩
    obtain ⟨m,hm⟩ := Option.isSome_iff_exists.mp hsome
    rw [hm]
    obtain ⟨hx,i,hi,he,hbefore⟩ := List.find?_eq_some_iff_getElem.mp hm
    have hmem : m ∈ List.range' (2^pageLevels q) (2^pageLevels q) := he ▸ List.getElem_mem hi
    obtain ⟨hmpos,hmd⟩ := mem_level.mp hmem
    obtain ⟨k,hk,hkm⟩ := hs.chosen_le hmpos hmd (hfree.mp (of_decide_eq_true hx))
    obtain rfl := Option.some.inj (hc.symm.trans hk)
    -- nothing before `m` in the level is free
    by_contra hne
    have hlt : n < m := lt_of_le_of_ne hkm (fun h => hne (by rw [h]))
    obtain ⟨j,hj,hje⟩ := List.mem_iff_getElem.mp (mem_level.mpr ⟨hpos,hd⟩)
    rw [List.getElem_range'] at he hje
    have hji : j < i := by omega
    have hno := hbefore j hji
    rw [List.getElem_range',hje] at hno
    simp [hfree.mpr hf] at hno

theorem taken_filter (hs : RunOk s) :
    (nodes s).filter (fun n => nodeBase n ≠ a) =
      ((s.live.filter (·.address ≠ a)).map Block.node).toFinset := by
  ext n
  simp only [nodes,Finset.mem_filter,List.mem_toFinset,List.mem_map,List.mem_filter,
    decide_eq_true_iff]
  constructor
  · rintro ⟨⟨b,hb,rfl⟩,hne⟩
    exact ⟨b,⟨hb,by rwa [(hs.live b hb).2.2.2]⟩,rfl⟩
  · rintro ⟨b,⟨hb,hne⟩,rfl⟩
    exact ⟨⟨b,hb,rfl⟩,by rwa [← (hs.live b hb).2.2.2]⟩

theorem taken_at (hs : RunOk s) :
    (∃ n ∈ nodes s, nodeBase n = a) ↔ ∃ b ∈ s.live, b.address = a := by
  simp only [nodes,List.mem_toFinset,List.mem_map]
  constructor
  · rintro ⟨-,⟨b,hb,rfl⟩,he⟩
    exact ⟨b,hb,by rw [(hs.live b hb).2.2.2,he]⟩
  · rintro ⟨b,hb,he⟩
    exact ⟨b.node,⟨b,hb,rfl⟩,by rw [← (hs.live b hb).2.2.2,he]⟩

theorem answer_allocate (hs : RunOk s) (hq : 1 ≤ q) (hle : q ≤ pageQuantity) :
    ∃ a h taken, Heap.answer s.heap (.allocatePages q) = some (a,h) ∧
      answer (nodes s) (.allocatePages q) = some (a,taken) ∧ Implements h taken := by
  obtain ⟨h',he,hd,-⟩ := allocatePages_spec hs.heap hq hle
  obtain ⟨s',hserve,hs'⟩ := serve_ok hs (r := .allocatePages q) ⟨hq,hle⟩
  have hpick := pick_eq (q := q) hs
  simp only [serve,he,Option.bind_eq_bind,Option.bind_some] at hserve
  cases hc : chosen q s.heap with
  | none =>
    rw [hc] at he hpick hserve
    rw [if_pos (show searchAddress none = null from rfl)] at hserve
    cases hserve
    exact ⟨null,h',nodes s,he,by rw [answer,hpick],_,rfl,hs',rfl⟩
  | some n =>
    rw [hc] at he hpick hserve
    rw [if_neg (show searchAddress (some n) ≠ null from nodeBase_ne_null n)] at hserve
    cases hserve
    have ha := hd.allocated hs.heap hc
    have hold : s.heap.blockUsage n ≠ .allocated := by simp [ha.route.target]
    have hnew := newlyAllocated_eq ha.pos ha.inside hold (ha.marked.allocated_iff ha.route)
    refine ⟨nodeBase n,h',insert n (nodes s),he,by rw [answer,hpick],_,rfl,hs',?_⟩
    simp only [nodes,hnew,List.map_cons,List.toFinset_cons]

theorem answer_free (hs : RunOk s) (ha : InArena a) :
    ∃ b h taken, Heap.answer s.heap (.freeMemory a) = some (b,h) ∧
      answer (nodes s) (.freeMemory a) = some (b,taken) ∧ Implements h taken := by
  by_cases hx : ∃ b ∈ s.live, b.address = a
  · obtain ⟨b,hb,rfl⟩ := hx
    obtain ⟨h',hf,hs'⟩ := hs.free_live hb
    have hat : ∃ n ∈ nodes s, nodeBase n = b.address := (taken_at hs).mpr ⟨b,hb,rfl⟩
    refine ⟨1,h',_,by rw [Heap.answer,hf]; rfl,?_,_,rfl,hs',taken_filter hs⟩
    rw [answer,decide_eq_true hat]
    rfl
  · have hno : ∀ b ∈ s.live, b.address ≠ a := fun b hb hba => hx ⟨b,hb,hba⟩
    have he := hs.isAllocatedPage_free ha hno
    refine ⟨0,s.heap,nodes s,by rw [Heap.answer,freeMemory_unallocated he]; rfl,?_,s,rfl,hs,rfl⟩
    rw [answer,decide_eq_false (fun h => hx ((taken_at hs).mp h)),taken_filter hs,
      hs.filter_unallocated he]
    rfl

theorem simulates : Simulates Heap.answer answer Request.Valid Implements := by
  rintro - - (q | a) ⟨s,rfl,hs,rfl⟩ hv
  · exact answer_allocate hs hv.1 hv.2
  · exact answer_free hs hv

theorem implements_initial : Implements initializeHeap ∅ := ⟨initialRun,rfl,initialRun_ok,rfl⟩

def Apart (taken : Finset ℕ) : Prop := ∀ n ∈ taken, ∀ m ∈ taken, Above n m → n = m

theorem Implements.apart (hi : Implements h taken) : Apart taken := by
  obtain ⟨s,-,hs,rfl⟩ := hi
  intro n hn m hm hnm
  obtain ⟨b,hb,rfl⟩ := List.mem_map.mp (List.mem_toFinset.mp hn)
  obtain ⟨c,hc,rfl⟩ := List.mem_map.mp (List.mem_toFinset.mp hm)
  obtain ⟨hb1,-,hb3,-⟩ := hs.live b hb
  obtain ⟨-,hc2,hc3,-⟩ := hs.live c hc
  exact hs.heap.tree.allocated_eq hb1 hc2 hnm hb3 hc3

/-- The blocks taken are read off the tree. -/
theorem Implements.mem_iff (hi : Implements h taken) :
    n ∈ taken ↔ 0 < n ∧ n ≤ heapSize ∧ h.blockUsage n = .allocated := by
  obtain ⟨s,rfl,hs,rfl⟩ := hi
  simp only [nodes,List.mem_toFinset,List.mem_map]
  constructor
  · rintro ⟨b,hb,rfl⟩
    obtain ⟨h1,h2,h3,-⟩ := hs.live b hb
    exact ⟨h1,h2,h3⟩
  · rintro ⟨h1,h2,h3⟩
    exact hs.complete n h1 h2 h3

end Blocks
open Blocks

/-- The allocator answers every sequence of requests as the set of blocks does, and its
allocated nodes are that set. Two histories that end with the same allocated nodes are not
told apart by any requests that follow, whatever else they have left in the arrays. -/
theorem allocator_refinement (rs : List Request) (hrs : ∀ r ∈ rs, r.Valid) :
    ∃ as h taken, answers Heap.answer rs initializeHeap = some (as,h) ∧
      answers Blocks.answer rs ∅ = some (as,taken) ∧ Apart taken ∧
      (∀ n, n ∈ taken ↔ 0 < n ∧ n ≤ heapSize ∧ h.blockUsage n = .allocated) ∧
      ∀ rs' as' h', (∀ r ∈ rs', r.Valid) → answers Heap.answer rs' initializeHeap = some (as',h') →
        (∀ n, 0 < n → n ≤ heapSize → (h.blockUsage n = .allocated ↔ h'.blockUsage n = .allocated)) →
        ∀ more, (∀ r ∈ more, r.Valid) → (answers Heap.answer more h).map Prod.fst =
          (answers Heap.answer more h').map Prod.fst := by
  obtain ⟨as,h,taken,hf,hg,hi⟩ := simulates.answers implements_initial hrs
  refine ⟨as,h,taken,hf,hg,hi.apart,fun n => hi.mem_iff,?_⟩
  intro rs' as' h' hrs' hf' hsame more hmore
  obtain ⟨bs,k,taken',hf₁,-,hi'⟩ := simulates.answers implements_initial hrs'
  obtain ⟨rfl,rfl⟩ : as' = bs ∧ h' = k := by simpa [hf'] using hf₁
  have htaken : taken = taken' := by
    ext n
    rw [hi.mem_iff,hi'.mem_iff]
    exact and_congr_right (fun hn => and_congr_right (fun hle => hsame n hn hle))
  subst htaken
  obtain ⟨cs,k,t,hm,hmg,-⟩ := simulates.answers hi hmore
  obtain ⟨ds,k',t',hm',hmg',-⟩ := simulates.answers hi' hmore
  obtain ⟨rfl,rfl⟩ : cs = ds ∧ t = t' := by simpa [hmg'] using hmg.symm
  rw [hm,hm']
  rfl

theorem allocator_refinement_plain :
    (∀ r ∈ [Request.allocatePages 3,.freeMemory base], r.Valid) ∧
      ∃ as h taken, answers Heap.answer [.allocatePages 3,.freeMemory base] initializeHeap =
          some (as,h) ∧
        answers Blocks.answer [.allocatePages 3,.freeMemory base] ∅ = some (as,taken) := by
  have hv : ∀ r ∈ [Request.allocatePages 3,.freeMemory base], r.Valid := by
    simp [Request.Valid,InArena,base,pageSize,pageQuantity]
  obtain ⟨as,h,taken,hf,hg,-⟩ := allocator_refinement _ hv
  exact ⟨hv,as,h,taken,hf,hg⟩

end ComplexOS.BuddyAllocator
