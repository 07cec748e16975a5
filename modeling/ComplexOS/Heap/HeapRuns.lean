import ComplexOS.Heap.HeapCalls
import ComplexOS.Library.Runs

/-! # Heap runs

A run is any sequence of allocation and release requests from the initial heap.
The ghost list of live blocks records, for every answered and not yet freed
address, the tree node that became allocated.
-/
namespace ComplexOS.BuddyAllocator
open BinaryNodes

structure Block where
  address : ℕ
  node : ℕ
  deriving DecidableEq, Repr

def Block.bytes (b : Block) : ℕ := pageQuantity / 2^(depth b.node) * pageSize

inductive Request
  | allocatePages (q : ℕ)
  | freeMemory (a : ℕ)

/-- Requests of the callers: a size from `1` to the arena's, an address of the arena. -/
def Request.Valid : Request → Prop
  | .allocatePages q => 1 ≤ q ∧ q ≤ pageQuantity
  | .freeMemory a => InArena a

structure RunState where
  heap : Heap
  live : List Block

def becameAllocated (h h' : Heap) (i : ℕ) : Bool :=
  decide (h'.blockUsage i = .allocated ∧ h.blockUsage i ≠ .allocated)

def newlyAllocated (h h' : Heap) : ℕ :=
  ((List.range' 1 heapSize).find? (becameAllocated h h')).getD 0

def serve (s : RunState) : Request → Option RunState
  | .allocatePages q => do
    let (a,h) ← allocatePages q s.heap
    if a = null then pure { s with heap := h }
    else pure { heap := h, live := ⟨a,newlyAllocated s.heap h⟩ :: s.live }
  | .freeMemory a => do
    let (freed,h) ← freeMemory a s.heap
    pure { heap := h, live := if freed then s.live.filter (·.address ≠ a) else s.live }

def serveAll (rs : List Request) (s : RunState) : Option RunState := Runs.run serve s rs

def initialRun : RunState := ⟨initializeHeap,[]⟩

/-- The live blocks are exactly the allocated nodes. -/
structure RunOk (s : RunState) : Prop where
  heap : HeapOk s.heap
  nodup : (s.live.map Block.node).Nodup
  live : ∀ b ∈ s.live, 0 < b.node ∧ b.node ≤ heapSize ∧ s.heap.blockUsage b.node = .allocated ∧
    b.address = nodeBase b.node
  complete : ∀ i, 0 < i → i ≤ heapSize → s.heap.blockUsage i = .allocated →
    ∃ b ∈ s.live, b.node = i

theorem initialRun_ok : RunOk initialRun :=
  ⟨initializeHeap_ok,List.nodup_nil,by simp [initialRun],fun _ _ _ h => by cases h⟩

theorem newlyAllocated_eq {h h' : Heap} {n : ℕ} (hn : 0 < n) (hle : n ≤ heapSize)
    (hold : h.blockUsage n ≠ .allocated)
    (hiff : ∀ i, h'.blockUsage i = .allocated ↔ i = n ∨ h.blockUsage i = .allocated) :
    newlyAllocated h h' = n := by
  have hsome : ((List.range' 1 heapSize).find? (becameAllocated h h')).isSome := by
    refine List.find?_isSome.mpr ⟨n,List.mem_range'_1.mpr (by omega),?_⟩
    exact decide_eq_true ⟨(hiff n).mpr (Or.inl rfl),hold⟩
  obtain ⟨i,hi⟩ := Option.isSome_iff_exists.mp hsome
  have hp := List.find?_some hi
  have hx := of_decide_eq_true hp
  rw [newlyAllocated,hi]
  exact ((hiff i).mp hx.1).resolve_right hx.2

/-- One request keeps the invariant; in particular it never leaves the arrays. -/
theorem serve_ok {s : RunState} (hs : RunOk s) {r : Request} (hr : r.Valid) :
    ∃ s', serve s r = some s' ∧ RunOk s' := by
  cases r with
  | allocatePages q =>
    obtain ⟨h',he,hd,hok⟩ := allocatePages_spec hs.heap hr.1 hr.2
    simp only [serve,he,Option.bind_eq_bind,Option.bind_some]
    cases hc : chosen q s.heap with
    | none =>
      rw [hc] at hd
      refine ⟨{ s with heap := h' },by simp [searchAddress],hok,hs.nodup,?_,?_⟩
      · simpa only [hd.usage,searchUsage] using hs.live
      · simpa only [hd.usage,searchUsage] using hs.complete
    | some n =>
      have ha := hd.allocated hs.heap hc
      have hiff := ha.marked.allocated_iff ha.route
      have hold : s.heap.blockUsage n ≠ .allocated := by simp [ha.route.target]
      have hnew := newlyAllocated_eq ha.pos ha.inside hold hiff
      refine ⟨⟨h',⟨nodeBase n,newlyAllocated s.heap h'⟩ :: s.live⟩,if_neg (nodeBase_ne_null n),
        hok,?_,?_,?_⟩
      · simp only [List.map_cons,hnew]
        refine List.nodup_cons.mpr ⟨fun hmem => ?_,hs.nodup⟩
        obtain ⟨b,hb,hbn⟩ := List.mem_map.mp hmem
        exact hold (hbn ▸ (hs.live b hb).2.2.1)
      · intro b hb
        rcases List.mem_cons.mp hb with rfl | hb
        · simp only [hnew]
          exact ⟨ha.pos,ha.inside,ha.marked.target,trivial⟩
        · obtain ⟨h1,h2,h3,h4⟩ := hs.live b hb
          exact ⟨h1,h2,(hiff _).mpr (Or.inr h3),h4⟩
      · intro i hi hile hx
        rcases (hiff i).mp hx with rfl | hx
        · exact ⟨_,List.mem_cons_self,hnew⟩
        · obtain ⟨b,hb,hbi⟩ := hs.complete i hi hile hx
          exact ⟨b,List.mem_cons_of_mem _ hb,hbi⟩
  | freeMemory a =>
    simp only [serve,Option.bind_eq_bind]
    rcases freeMemory_spec hs.heap hr with ⟨he,-⟩ | ⟨h',n,he,hn,hle,hal,hbase,hrel⟩
    · rw [he]
      exact ⟨_,rfl,hs.heap,hs.nodup,hs.live,hs.complete⟩
    · rw [he]
      have haddr : ∀ b ∈ s.live, b.address = a ↔ b.node = n := by
        intro b hb
        obtain ⟨h1,h2,h3,h4⟩ := hs.live b hb
        rw [h4]
        refine ⟨fun hx => ?_,fun hx => by rw [hx,hbase]⟩
        -- equal bases have a common leaf, so the two allocated nodes are comparable
        have hab := (base_mem_block h1 h2).2
        have hnb := (base_mem_block hn hle).2
        rw [hx] at hab
        rw [hbase] at hnb
        rcases hab.linear hnb with hx | hx
        · exact hs.heap.tree.allocated_eq h1 hle hx h3 hal
        · exact (hs.heap.tree.allocated_eq hn h2 hx hal h3).symm
      refine ⟨_,rfl,hrel.ok,?_,?_,?_⟩
      · exact hs.nodup.sublist (List.Sublist.map _ List.filter_sublist)
      · intro b hb
        obtain ⟨hb,hne⟩ := List.mem_filter.mp hb
        obtain ⟨h1,h2,h3,h4⟩ := hs.live b hb
        have hbn : b.node ≠ n := fun hx => (of_decide_eq_true hne) ((haddr b hb).mpr hx)
        exact ⟨h1,h2,(hrel.allocated_iff _ h1 h2).mpr ⟨h3,hbn⟩,h4⟩
      · intro i hi hile hx
        obtain ⟨hx,hin⟩ := (hrel.allocated_iff i hi hile).mp hx
        obtain ⟨b,hb,hbi⟩ := hs.complete i hi hile hx
        refine ⟨b,List.mem_filter.mpr ⟨hb,?_⟩,hbi⟩
        exact decide_eq_true (fun hx => hin (hbi ▸ (haddr b hb).mp hx))

theorem serveAll_ok {s : RunState} (hs : RunOk s) {rs : List Request} (hr : ∀ r ∈ rs, r.Valid) :
    ∃ s', serveAll rs s = some s' ∧ RunOk s' :=
  Runs.run_total (V := Request.Valid) (fun _ _ hs hr => serve_ok hs hr) hs hr

/-- A request of no page, or of more than there are, leaves the heap alone. -/
theorem allocatePages_invalid {q : ℕ} (h : Heap) (hq : q = 0 ∨ pageQuantity < q) :
    allocatePages q h = some (null,h) := by
  unfold allocatePages
  rw [if_pos]
  exact hq.imp (fun h0 => by rw [h0]; rfl) (fun hlt => by exact_mod_cast hlt)

theorem serve_null {s : RunState} {q : ℕ} {h' : Heap} (he : allocatePages q s.heap = some (null,h')) :
    serve s (.allocatePages q) = some { s with heap := h' } := by
  rw [serve,he]
  rfl

theorem serve_block {s : RunState} {h' : Heap} {q a : ℕ} (he : allocatePages q s.heap = some (a,h'))
    (ha : a ≠ null) :
    serve s (.allocatePages q) = some ⟨h',⟨a,newlyAllocated s.heap h'⟩::s.live⟩ := by
  simp [serve,he,ha]

theorem allocatePages_total {s : RunState} (hs : RunOk s) (q : ℕ) : ∃ a h', allocatePages q s.heap = some (a,h') ∧
    ∀ s', serve s (.allocatePages q) = some s' → RunOk s' := by
  by_cases hq : 1 ≤ q ∧ q ≤ pageQuantity
  · obtain ⟨h',he,-,-⟩ := allocatePages_spec hs.heap hq.1 hq.2
    obtain ⟨t,ht,hok⟩ := serve_ok hs (r := .allocatePages q) hq
    refine ⟨_,h',he,fun s' hs' => ?_⟩
    obtain rfl := Option.some.inj (ht.symm.trans hs')
    exact hok
  · have he := allocatePages_invalid s.heap (q := q) (by omega)
    refine ⟨_,_,he,fun s' hs' => ?_⟩
    obtain rfl := Option.some.inj ((serve_null he).symm.trans hs')
    exact hs

theorem RunOk.disjoint {s : RunState} (hs : RunOk s) :
    s.live.Pairwise (fun b c => b.address + b.bytes ≤ c.address ∨ c.address + c.bytes ≤ b.address) := by
  refine List.Pairwise.imp_of_mem ?_ (List.pairwise_map.mp hs.nodup)
  intro b c hb hc hne
  obtain ⟨hb1,hb2,hb3,hb4⟩ := hs.live b hb
  obtain ⟨hc1,hc2,hc3,hc4⟩ := hs.live c hc
  rw [hb4,hc4]
  exact blocks_disjoint hb1 hb2 hc1 hc2
    (fun h => hne (hs.heap.tree.allocated_eq hb1 hc2 h hb3 hc3))
    (fun h => hne (hs.heap.tree.allocated_eq hc1 hb2 h hc3 hb3).symm)

/-- The blocks of every run are disjoint, inside the arena and aligned to their
size, and the three supporting facts hold of the markers and cached bases. -/
theorem heap_run_blocks (rs : List Request) (hrs : ∀ r ∈ rs, r.Valid) :
    ∃ s, serveAll rs initialRun = some s ∧
      s.live.Pairwise (fun b c =>
        b.address + b.bytes ≤ c.address ∨ c.address + c.bytes ≤ b.address) ∧
      (∀ b ∈ s.live, s.heap.blockUsage b.node = .allocated ∧
        s.heap.memoryBase b.node = b.address ∧ base ≤ b.address ∧
        b.address + b.bytes ≤ base + pageSize*pageQuantity ∧ b.bytes ∣ b.address - base) ∧
      (∀ i, 0 < i → i ≤ heapSize → s.heap.memoryBase i ≠ null →
        s.heap.memoryBase i = base + (i - 2^(depth i)) * (pageQuantity / 2^(depth i) * pageSize)) ∧
      (∀ j i, 0 < j → i ≤ heapSize → Above j i → j ≠ i →
        s.heap.blockUsage j = .unused ∨ s.heap.blockUsage j = .allocated →
        s.heap.blockUsage i = .unused) ∧
      (∀ j l, 0 < j → Above j l → pageQuantity ≤ l → l ≤ heapSize →
        s.heap.blockUsage j = .fullyUsed → ∃ b ∈ s.live, Above b.node l) := by
  obtain ⟨s,he,hs⟩ := serveAll_ok initialRun_ok hrs
  refine ⟨s,he,hs.disjoint,?_,?_,?_,?_⟩
  · intro b hb
    obtain ⟨h1,h2,h3,h4⟩ := hs.live b hb
    rw [h4]
    refine ⟨h3,hs.heap.base_eq h1 h2 h3,Nat.le_add_right _ _,block_in_arena h1 h2,?_⟩
    rw [nodeBase,Nat.add_sub_cancel_left]
    exact Dvd.intro_left _ rfl
  · intro i hi hile hne
    exact hs.heap.bases.eq_nodeBase hi hile hne
  · intro j i hj hi ha hne hc
    exact hs.heap.tree.unused_below hj hi ha hne hc
  · intro j l hj ha hlo hhi hf
    rcases hs.heap.tree.full_below hj hhi ha hf with hx | ⟨n,hjn,hnl,hx⟩
    · rcases hs.heap.tree.leaf l hlo hhi with hl | hl <;> rw [hx] at hl <;> cases hl
    · obtain ⟨b,hb,hbn⟩ := hs.complete n (hj.trans_le hjn.le) (hnl.le.trans hhi) hx
      exact ⟨b,hb,hbn ▸ hnl⟩

def twoLive : List Request :=
  [.allocatePages 3,.allocatePages 5,.freeMemory base,.allocatePages 2]

theorem twoLive_valid : ∀ r ∈ twoLive, r.Valid := by
  simp [twoLive,Request.Valid,InArena,pageQuantity,pageSize]

theorem twoLive_addresses : (serveAll twoLive initialRun).map (fun s => s.live.map Block.address) =
    some [base,base+8*pageSize] := by decide +kernel

theorem heap_run_blocks_two :
    ∃ s, serveAll twoLive initialRun = some s ∧ s.live.map Block.address = [base,base+8*pageSize] ∧
      s.live.Pairwise (fun b c =>
        b.address + b.bytes ≤ c.address ∨ c.address + c.bytes ≤ b.address) := by
  obtain ⟨s,he,hd,-⟩ := heap_run_blocks _ twoLive_valid
  have hlive := twoLive_addresses
  rw [he] at hlive
  exact ⟨s,he,Option.some.inj hlive,hd⟩

def freeAll : List ℕ → Heap → Option Heap
  | [], h => some h
  | a::as, h => do
    let (freed,h) ← freeMemory a h
    if freed then freeAll as h else none

theorem RunOk.free_live {s : RunState} (hs : RunOk s) {b : Block} (hb : b ∈ s.live) :
    ∃ h', freeMemory b.address s.heap = some (true,h') ∧
      RunOk ⟨h',s.live.filter (·.address ≠ b.address)⟩ := by
  obtain ⟨h1,h2,h3,h4⟩ := hs.live b hb
  have harena : InArena b.address := by
    rw [h4]
    exact (base_mem_block h1 h2).1
  obtain ⟨s',he,hs'⟩ := serve_ok hs (r := .freeMemory b.address) harena
  rcases freeMemory_spec hs.heap harena with ⟨_,hno⟩ | ⟨h',n,hf,-⟩
  · exact (hno b.node h1 h2 h3 h4.symm).elim
  · refine ⟨h',hf,?_⟩
    rw [serve,hf] at he
    cases he
    exact hs'

theorem RunOk.perm_filter {s : RunState} (hs : RunOk s) {b : Block} {order : List Block}
    (hp : (b::order).Perm s.live) : order.Perm (s.live.filter (·.address ≠ b.address)) := by
  have hnd := (hp.map Block.node).nodup_iff.mpr hs.nodup
  have hkeep : order.filter (·.address ≠ b.address) = order := by
    refine List.filter_eq_self.mpr (fun c hc => decide_eq_true (fun he => ?_))
    have hbl := hs.live b (hp.subset List.mem_cons_self)
    have hcl := hs.live c (hp.subset (List.mem_cons_of_mem _ hc))
    -- one base for two allocated nodes: both are above the leaf of that base
    have hab := (base_mem_block hbl.1 hbl.2.1).2
    have hac := (base_mem_block hcl.1 hcl.2.1).2
    rw [← hbl.2.2.2,← he,hcl.2.2.2] at hab
    have hnode : b.node = c.node := (hab.linear hac).elim
      (fun h => hs.heap.tree.allocated_eq hbl.1 hcl.2.1 h hbl.2.2.1 hcl.2.2.1)
      (fun h => (hs.heap.tree.allocated_eq hcl.1 hbl.2.1 h hcl.2.2.1 hbl.2.2.1).symm)
    exact (List.nodup_cons.mp hnd).1 (hnode ▸ List.mem_map_of_mem hc)
  have hf := hp.filter (fun c => decide (c.address ≠ b.address))
  rw [List.filter_cons_of_neg (by simp),hkeep] at hf
  exact hf

theorem RunOk.freeAll {s : RunState} (hs : RunOk s) {order : List Block}
    (hp : order.Perm s.live) :
    ∃ h', BuddyAllocator.freeAll (order.map Block.address) s.heap = some h' ∧ RunOk ⟨h',[]⟩ := by
  induction order generalizing s with
  | nil =>
    have hnil : s.live = [] := List.nil_perm.mp hp
    exact ⟨s.heap,rfl,hnil ▸ hs⟩
  | cons b order ih =>
    obtain ⟨h₁,he₁,hs₁⟩ := hs.free_live (hp.subset List.mem_cons_self)
    obtain ⟨h₂,he₂,hs₂⟩ := ih hs₁ (hs.perm_filter hp)
    refine ⟨h₂,?_,hs₂⟩
    simp only [List.map_cons,BuddyAllocator.freeAll,he₁,Option.bind_eq_bind,Option.bind_some]
    exact he₂

/-- Releasing what was just allocated restores every marker, and releasing all
live blocks in any order leaves an arena that can be handed out whole. -/
theorem heap_run_release (rs : List Request) (hrs : ∀ r ∈ rs, r.Valid) :
    ∃ s, serveAll rs initialRun = some s ∧
      (∀ q a h, 1 ≤ q → q ≤ pageQuantity → allocatePages q s.heap = some (a,h) → a ≠ null →
        ∃ h', freeMemory a h = some (true,h') ∧ h'.blockUsage = s.heap.blockUsage) ∧
      (∀ order : List Block, order.Perm s.live →
        ∃ h, freeAll (order.map Block.address) s.heap = some h ∧
          (∀ i, 0 < i → i ≤ heapSize → h.blockUsage i = .unused) ∧
          ∃ h', allocatePages 2048 h = some (base,h')) := by
  obtain ⟨s,he,hs⟩ := serveAll_ok initialRun_ok hrs
  refine ⟨s,he,?_,?_⟩
  · intro q a h hq hle ha hne
    obtain ⟨h',he',hd,hok⟩ := allocatePages_spec hs.heap hq hle
    rw [he'] at ha
    cases ha
    cases hc : chosen q s.heap with
    | none => simp [hc,searchAddress] at hne
    | some n => exact freeMemory_restores hs.heap hok (hd.allocated hs.heap hc)
  · intro order hp
    obtain ⟨h,hf,hs'⟩ := hs.freeAll hp
    have hall : ∀ i, 0 < i → i ≤ heapSize → h.blockUsage i = .unused := fun i hi hile =>
      hs'.heap.tree.unused_of_no_allocated (fun j hj hjle hx => by
        obtain ⟨b,hb,-⟩ := hs'.complete j hj hjle hx
        cases hb) hi hile
    refine ⟨h,hf,hall,?_⟩
    obtain ⟨h',he',-⟩ := allocatePages_spec hs'.heap (q := 2048) (by omega) le_rfl
    have hroot : chosen 2048 h = some 1 := by
      have hl : pageLevels 2048 = 0 := by decide
      rw [chosen,hl,firstFree,if_pos (hall 1 (by omega) (by decide))]
    rw [hroot] at he'
    exact ⟨h',he'⟩

/-- The two blocks are released in the order in which they were given. -/
theorem heap_run_release_two : ∃ s h, serveAll twoLive initialRun = some s ∧
    s.live.length = 2 ∧ freeAll (s.live.reverse.map Block.address) s.heap = some h ∧
      ∀ i, 0 < i → i ≤ heapSize → h.blockUsage i = .unused := by
  obtain ⟨s,he,-,hf⟩ := heap_run_release _ twoLive_valid
  obtain ⟨h,hh,hunused,-⟩ := hf s.live.reverse (List.reverse_perm _)
  have hlive := twoLive_addresses
  rw [he] at hlive
  have hlen := congrArg List.length (Option.some.inj hlive)
  rw [List.length_map] at hlen
  exact ⟨s,h,he,hlen,hh,hunused⟩

end ComplexOS.BuddyAllocator
