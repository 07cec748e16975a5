import ComplexOS.Heap.RequestedSize
import ComplexOS.Modules.MemoryCopy

/-! # Reallocation

`reallocatePages` gives the block back before it asks for the new one, takes the size of the
old one from the number of its parent, and copies from the new block to the old. The kernel
is built without optimisation, so an `int` product keeps its low half.
-/
namespace ComplexOS.BuddyAllocator
open BinaryNodes ByteMemory ModuleLoader

/-- The climb of `isAllocatedPageRecursive`, with the parent's index for its answer. -/
def getParentIndexRecursive (h : Heap) (memoryBase : ℕ) : ℕ → ℤ → Option ℤ
  | 0, _ => none
  | fuel+1, index =>
    if index ≤ 0 then some 0
    else do
      let usage ← h.usageAt index.toNat
      if usage = .allocated ∧ h.memoryBase index.toNat = memoryBase then pure (index/2)
      else if usage = .unused then getParentIndexRecursive h memoryBase fuel (index/2)
      else pure (-1)

def getParentIndex (h : Heap) (memoryBase : ℕ) : Option ℤ :=
  getParentIndexRecursive h memoryBase (treeLevels+1)
    (toInt (pageNumber memoryBase + 1) + (heapSize/2 : ℕ))

/-- `log2(getParentIndex(address)) + 1`, where the index is handed over as `uint64_t`. -/
def divisionsOf (parentIndex : ℤ) : ℕ := log2 (parentIndex % 2^64).toNat + 1

/-- `previousPages * PAGE_SIZE`, where `previousPages` is a number of bytes. -/
def copyLength (divisions : ℕ) : ℤ := toInt (pageSize*pageQuantity / 2^divisions * pageSize)

/-- What a call leaves. The copy has written `written` bytes from the old address on. -/
structure Reallocation where
  result : ℕ
  heap : Heap
  memory : ℕ → UInt8
  written : ℕ

/-- A copy of a negative length runs through all of memory. -/
def reallocatePages (pages : ℤ) (address : ℕ) (h : Heap) (memory : ℕ → UInt8) :
    Option Reallocation :=
  (getParentIndex h address).bind (fun parentIndex =>
    if pages = 0 ∨ pages > pageQuantity then some ⟨null,h,memory,0⟩
    else (freeMemory address h).bind (fun (freed,h) =>
      if freed then (allocatePages pages h).bind (fun (aux,h) =>
        if aux ≠ null then
          let length := copyLength (divisionsOf parentIndex)
          if length < 0 then none
          else some ⟨aux,h,memcpy memory address aux length.toNat,length.toNat⟩
        else some ⟨aux,h,memory,0⟩)
      else some ⟨null,h,memory,0⟩))

/-! ### What it is for -/

/-- The data of the block is at the new address as far as both blocks go and the copy has
stayed in the new block; where there is no new block, the old one is as it was. -/
def Preserves (s : RunState) (b : Block) (pages : ℕ) : Prop :=
  ∀ memory, ∃ r, reallocatePages pages b.address s.heap memory = some r ∧
    (r.result ≠ null →
      (∀ i < min b.bytes (pages*pageSize), r.memory (r.result+i) = memory (b.address+i)) ∧
        ∀ x, b.address ≤ x → x < b.address+r.written →
          r.result ≤ x ∧ x < r.result+levelPages pages*pageSize) ∧
    (r.result = null → r.heap.blockUsage b.node = .allocated ∧
      ∀ i < b.bytes, r.memory (b.address+i) = memory (b.address+i))

def RunState.without (s : RunState) (b : Block) : RunState :=
  { s with live := s.live.filter (·.address ≠ b.address) }

/-- Without the block, the free node of lowest address for the request starts at the block. -/
def RunState.Refits (s : RunState) (b : Block) (pages : ℕ) : Prop :=
  ∃ n, 0 < n ∧ depth n = pageLevels pages ∧ (s.without b).FreeNode n ∧ nodeBase n = b.address ∧
    ∀ m, 0 < m → depth m = pageLevels pages → (s.without b).FreeNode m → nodeBase n ≤ nodeBase m

variable {h : Heap} {s : RunState} {b : Block} {a d i n pages : ℕ} {cs : List HeapCall}

/-! ### The size of the copy -/

theorem getParentIndexRecursive_of_true {z : ℤ} (he : isAllocatedPageRecursive h a n z = some true) :
    ∃ k, 0 < k ∧ k ≤ heapSize ∧ h.blockUsage k = .allocated ∧ h.memoryBase k = a ∧
      getParentIndexRecursive h a n z = some ((k/2 : ℕ) : ℤ) := by
  induction n generalizing z with
  | zero => cases he
  | succ n ih =>
    unfold isAllocatedPageRecursive at he
    unfold getParentIndexRecursive
    split_ifs at he ⊢ with hz
    · cases he
    · obtain ⟨u,hu,he⟩ := Option.bind_eq_some_iff.mp he
      rw [hu,Option.bind_eq_bind,Option.bind_some]
      obtain ⟨hin,hx⟩ := Option.ite_none_right_eq_some.mp hu
      split_ifs at he ⊢ with hhit hun
      · obtain ⟨k,rfl⟩ := Int.eq_ofNat_of_zero_le (by omega : 0 ≤ z)
        exact ⟨k,hin.1,hin.2,(Option.some.inj hx).trans hhit.1,hhit.2,rfl⟩
      · exact ih he
      · cases he

theorem RunOk.parentIndex (hs : RunOk s) (hb : b ∈ s.live) :
    getParentIndex s.heap b.address = some ((b.node/2 : ℕ) : ℤ) := by
  obtain ⟨k,hk,hle,hal,hbase,he⟩ := getParentIndexRecursive_of_true (hs.isAllocatedPage_live hb)
  obtain ⟨c,hc,rfl⟩ := hs.complete k hk hle hal
  have haddress : c.address = b.address := by
    rw [(hs.live c hc).2.2.2,← hs.heap.base_eq hk hle hal,hbase]
  rw [getParentIndex,he,hs.address_inj hc hb haddress]

theorem divisionsOf_node (hn : 0 < n) (hle : n ≤ heapSize) : 1 ≤ divisionsOf ((n/2 : ℕ) : ℤ) ∧
    divisionsOf ((n/2 : ℕ) : ℤ) ≤ 12 ∧
      (divisionsOf ((n/2 : ℕ) : ℤ) = 12 → n/2 % 2 = 1 ∧ 1024 ≤ n/2) := by
  have hhalf : ((((n/2 : ℕ) : ℤ) % 2^64).toNat) = n/2 := by
    simp only [heapSize_eq] at hle
    omega
  have hlog : Nat.log 2 (n/2) ≤ 10 := by
    have hlt : n/2 < 2^11 := by
      simp only [heapSize_eq] at hle
      omega
    have := Nat.log_lt_of_lt_pow' (by omega) hlt
    omega
  have hlast : Nat.log 2 (n/2) = 10 → 1024 ≤ n/2 := by
    intro hten
    have hne : n/2 ≠ 0 := by
      intro hzero
      rw [hzero,Nat.log_zero_right] at hten
      omega
    exact Nat.pow_le_of_le_log hne hten.ge
  unfold divisionsOf
  rw [hhalf,log2_eq (by simp only [heapSize_eq] at hle; omega)]
  omega

/-- Nothing for a large block, and otherwise more than the arena behind the old one. -/
theorem copyLength_cases (hd : 1 ≤ d) (hd' : d ≤ 12) :
    d ≤ 3 ∧ copyLength d = 0 ∨ 3 < d ∧ (copyLength d < 0 ∨
      2^23 ≤ copyLength d ∧ (d ≠ 12 → 2^23 < copyLength d)) := by
  unfold copyLength
  simp only [pageSize,pageQuantity_eq]
  interval_cases d <;> decide

/-- The arena's first address belongs to no leaf with an odd parent. -/
theorem nodeBase_eq_base (hn : 0 < n) (hle : n ≤ heapSize) (hb : nodeBase n = base) :
    n = 2^(depth n) := by
  have hpl := pow_depth_le hn
  have hpos := blockBytes_pos hn hle
  have hzero : (n-2^(depth n))*blockBytes n = 0 := by
    unfold nodeBase at hb
    omega
  rcases Nat.mul_eq_zero.mp hzero with hx | hx <;> omega

/-! ### The whole call -/

/-- What is left after the release and before the new allocation. -/
theorem RunOk.reallocatePages_eq (hs : RunOk s) (hb : b ∈ s.live) (hq : 1 ≤ pages)
    (hle : pages ≤ pageQuantity) :
    ∃ h, RunOk ⟨h,(s.without b).live⟩ ∧ h.blockUsage b.node ≠ .allocated ∧
      ∀ memory, reallocatePages pages b.address s.heap memory =
        (allocatePages pages h).bind (fun x =>
          if x.1 ≠ null then
            if copyLength (divisionsOf ((b.node/2 : ℕ) : ℤ)) < 0 then none
            else some ⟨x.1,x.2,copied memory b.address x.1
              (copyLength (divisionsOf ((b.node/2 : ℕ) : ℤ))).toNat,
              (copyLength (divisionsOf ((b.node/2 : ℕ) : ℤ))).toNat⟩
          else some ⟨x.1,x.2,memory,0⟩) := by
  obtain ⟨h,hfree,hok⟩ := hs.free_live hb
  refine ⟨h,hok,fun hal => ?_,fun memory => ?_⟩
  · obtain ⟨h1,h2,-,h4⟩ := hs.live b hb
    obtain ⟨c,hc,hnode⟩ := hok.complete b.node h1 h2 hal
    obtain ⟨hc,hne⟩ := List.mem_filter.mp hc
    refine of_decide_eq_true hne ?_
    rw [(hs.live c hc).2.2.2,hnode,h4]
  · have hvalid : ¬ ((pages:ℤ) = 0 ∨ (pages:ℤ) > pageQuantity) := by omega
    unfold reallocatePages
    rw [hs.parentIndex hb,Option.bind_some,if_neg hvalid,hfree,Option.bind_some]
    dsimp only
    generalize copyLength (divisionsOf ((b.node/2 : ℕ) : ℤ)) = length
    simp only [if_true,memcpy_eq]

/-- With nothing to copy the old place must be the new one, and anything else that is copied
goes over the end of the arena. -/
theorem RunOk.preserves_iff (hs : RunOk s) (hb : b ∈ s.live) (hq : 1 ≤ pages)
    (hle : pages ≤ pageQuantity) :
    Preserves s b pages ↔ s.Refits b pages ∧ divisionsOf ((b.node/2 : ℕ) : ℤ) ≤ 3 := by
  obtain ⟨h,hok,hgone,hcall⟩ := hs.reallocatePages_eq hb hq hle
  obtain ⟨a,h',halloc,hfit⟩ := hok.firstFit hq hle
  obtain ⟨h1,h2,-,h4⟩ := hs.live b hb
  obtain ⟨hd1,hd12,hodd⟩ := divisionsOf_node h1 h2
  have hlength := copyLength_cases hd1 hd12
  generalize copyLength (divisionsOf ((b.node/2 : ℕ) : ℤ)) = length at hlength hcall
  generalize divisionsOf ((b.node/2 : ℕ) : ℤ) = d at hd1 hd12 hodd hlength ⊢
  simp only [halloc,Option.bind_some] at hcall
  constructor
  · intro hp
    obtain ⟨r,hr,hdata,hkept⟩ := hp (Function.update (fun _ => 0) b.address 1)
    rw [hcall] at hr
    have hnonnull : a ≠ null := by
      intro hnull
      rw [if_neg (not_not.mpr hnull)] at hr
      obtain rfl := Option.some.inj hr
      have hal := (hkept hnull).1
      rw [hfit.refused hnull] at hal
      exact hgone hal
    rw [if_pos hnonnull] at hr
    split_ifs at hr with hneg
    obtain rfl := Option.some.inj hr
    obtain ⟨hsame,hinside⟩ := hdata hnonnull
    obtain ⟨n,hn,hdep,hfree,hbase,hmin,-⟩ := hfit.taken hnonnull
    have hbytes : 0 < min b.bytes (pages*pageSize) := by
      have := blockBytes_pos h1 h2
      exact Nat.lt_min.mpr ⟨this,Nat.mul_pos hq (by decide)⟩
    have haddress : a = b.address := by
      have hfirst := hsame 0 hbytes
      rw [Nat.add_zero,Nat.add_zero,Function.update_self] at hfirst
      change copied _ b.address a length.toNat a = 1 at hfirst
      by_contra hne
      unfold copied at hfirst
      split_ifs at hfirst with hin
      · have hplain : origin b.address a (a-b.address) = a+(a-b.address) := origin_eq (Or.inl hin.1)
        rw [hplain,Function.update_of_ne (by omega)] at hfirst
        cases hfirst
      · rw [Function.update_of_ne hne] at hfirst
        cases hfirst
    refine ⟨⟨n,hn,hdep,hfree,hbase.symm.trans haddress,hmin⟩,?_⟩
    rcases hlength with ⟨hsmall,-⟩ | ⟨-,hbad⟩
    · exact hsmall
    obtain ⟨hlo,hstrict⟩ := hbad.resolve_left hneg
    -- the last byte written is outside of every block, unless that is the arena
    have hlast := (hinside (b.address+length.toNat-1) (by omega)
      (by change _ < b.address+length.toNat; omega)).2
    change _ < a+_ at hlast
    have hblock := block_in_arena hn (level_inside (hdep.trans_le (pageLevels_le pages)))
    have hspan : blockBytes n = levelPages pages*pageSize := by
      rw [blockBytes,hdep,levelPages]
    rw [hspan,← hbase,haddress,h4] at hblock
    rw [haddress] at hlast
    have hge : base ≤ nodeBase b.node := Nat.le_add_right _ _
    have harena : pageSize*pageQuantity = 2^23 := rfl
    by_cases hd : d = 12
    · obtain ⟨hpar,hbig⟩ := hodd hd
      have hfirst := nodeBase_eq_base h1 h2 (by omega)
      have hdepth := depth_le_last h1 h2
      generalize depth b.node = e at hfirst hdepth
      interval_cases e <;> omega
    · have := hstrict hd
      omega
  · rintro ⟨⟨n,hn,hdep,hfree,hbase,hmin⟩,hsmall⟩ memory
    have hzero : length = 0 := by
      rcases hlength with ⟨-,hzero⟩ | ⟨hlarge,-⟩
      · exact hzero
      · omega
    have hnonnull : a ≠ null := by
      rw [ne_eq,hfit.null_iff]
      exact not_not.mpr ⟨n,hn,hdep,hfree⟩
    obtain ⟨m,hm,hmdep,hmfree,hmbase,hmmin,-⟩ := hfit.taken hnonnull
    have haddress : a = b.address := by
      rw [hmbase,← hbase]
      exact le_antisymm (hmmin n hn hdep hfree) (hmin m hm hmdep hmfree)
    refine ⟨⟨a,h',memory,0⟩,?_,fun _ => ⟨fun i _ => by rw [haddress],fun x hx hx' => ?_⟩,
      fun hnull => absurd hnull hnonnull⟩
    · rw [hcall,if_pos hnonnull,hzero,if_neg (by omega),Int.toNat_zero,copied_zero]
    · change x < b.address+0 at hx'
      omega

/-- On every heap a reallocation keeps the data exactly if the block is given the same address
again and is so large that the size of the copy has overflowed to nothing. -/
theorem reallocatePages_preserves (hr : performAll cs initialRun = some s) (hb : b ∈ s.live)
    (hq : 1 ≤ pages) (hle : pages ≤ pageQuantity) :
    Preserves s b pages ↔ s.Refits b pages ∧ divisionsOf ((b.node/2 : ℕ) : ℤ) ≤ 3 :=
  (performAll_ok hr).preserves_iff hb hq hle

theorem live_of_map {node address : ℕ}
    (h : (performAll cs initialRun).map (fun s => s.live.map (fun b => (b.address,b.node))) =
      some [(address,node)]) :
    ∃ s, performAll cs initialRun = some s ∧ s.live = [⟨address,node⟩] := by
  obtain ⟨s,hs,hlive⟩ := Option.map_eq_some_iff.mp h
  refine ⟨s,hs,?_⟩
  obtain ⟨b,hb,hnode⟩ := List.map_eq_singleton_iff.mp hlive
  cases b
  cases hnode
  exact hb

/-- The whole arena, of which one page is asked for again. -/
theorem reallocatePages_preserves_arena : ∃ s, performAll [.allocateMemory 0x800000] initialRun = some s ∧
    ⟨base,1⟩ ∈ s.live ∧ 1 ≤ 1 ∧ 1 ≤ pageQuantity ∧ Preserves s ⟨base,1⟩ 1 := by
  obtain ⟨s,hs,hlive⟩ : ∃ s, performAll [.allocateMemory 0x800000] initialRun = some s ∧
      s.live = [⟨base,1⟩] := live_of_map (by decide +kernel)
  have hb : ⟨base,1⟩ ∈ s.live := by
    rw [hlive]
    exact List.mem_singleton_self _
  have hle : 1 ≤ pageQuantity := by decide
  refine ⟨s,hs,hb,le_rfl,hle,(reallocatePages_preserves hs hb le_rfl hle).mpr ⟨?_,by decide⟩⟩
  have hnone : ∀ c, c ∉ (s.without ⟨base,1⟩).live := by
    intro c hc
    have hc' : c ∈ s.live.filter (·.address ≠ base) := hc
    rw [hlive] at hc'
    simp at hc'
  refine ⟨2048,by omega,depth_eq (by decide) (by decide),⟨fun _ _ _ _ c hc => absurd hc (hnone c),
    fun c hc => absurd hc (hnone c)⟩,by decide,fun m _ _ _ => ?_⟩
  have hfirst : nodeBase 2048 = base := by decide
  rw [hfirst]
  exact Nat.le_add_right _ _

/-- A block of one page is asked to grow to two. -/
theorem not_reallocatePages_preserves : ∃ cs s b, performAll cs initialRun = some s ∧ b ∈ s.live ∧
    ¬ Preserves s b 2 := by
  obtain ⟨s,hs,hlive⟩ : ∃ s, performAll [.allocateMemory 4096] initialRun = some s ∧
      s.live = [⟨base,2048⟩] := live_of_map (by decide +kernel)
  have hb : ⟨base,2048⟩ ∈ s.live := by
    rw [hlive]
    exact List.mem_singleton_self _
  refine ⟨_,s,⟨base,2048⟩,hs,hb,?_⟩
  rw [(performAll_ok hs).preserves_iff hb (by omega) (by decide)]
  rintro ⟨-,hd⟩
  exact absurd hd (by decide)

end ComplexOS.BuddyAllocator
