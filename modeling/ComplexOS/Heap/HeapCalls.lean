import ComplexOS.Heap.Release

/-! # Specifications of the two entry points

One lemma per call: what `allocatePages` and `freeMemory` answer and which nodes
are allocated afterwards. Runs and callers cite these and never unfold the walks.
-/
namespace ComplexOS.BuddyAllocator
open BinaryNodes

/-- Levels `getPages` descends for a request of `q` pages. -/
def pageLevels (q : ℕ) : ℕ := if q = 1 then maxLevels else maxLevels - log2 q

theorem log2_le_maxLevels {q : ℕ} (hq : 1 ≤ q) (hle : q ≤ pageQuantity) : log2 q ≤ maxLevels := by
  rw [pageQuantity_eq] at hle
  rw [log2_eq (by omega),maxLevels_eq]
  by_cases h : q = 2048
  · subst h
    decide
  · have := depth_le_of_lt (i := q) (d := 10) (by omega) (by omega)
    simp only [depth] at this
    omega

theorem pageLevels_le (q : ℕ) : pageLevels q ≤ 11 := by
  rw [pageLevels,maxLevels_eq]
  split <;> omega

theorem getPages_eq {q : ℕ} (hq : 1 ≤ q) (hle : q ≤ pageQuantity) (h : Heap) :
    getPages q h = getPagesRecursive treeLevels 1 (pageLevels q) h := by
  have hl := log2_le_maxLevels hq hle
  rw [pageQuantity_eq] at hle
  have hmod : ((q : ℤ) % 2^64).toNat = q := by omega
  rw [getPages,hmod,pageLevels]
  by_cases h1 : q = 1
  · simp [h1]
  · rw [if_neg (by exact_mod_cast h1),if_neg h1,Nat.cast_sub hl]

theorem fits_root {levels : ℕ} (h : levels ≤ 11) : Fits levels 1 := by
  have := Nat.pow_le_pow_right (n := 2) (by omega) h
  simp only [Fits,heapSize_eq]
  omega

def chosen (q : ℕ) (h : Heap) : Option ℕ := firstFree h.blockUsage (pageLevels q) 1

/-- `allocatePages` is the first-fit search from the root followed by the marking of its path. -/
theorem allocatePages_spec {h : Heap} (hok : HeapOk h) {q : ℕ} (hq : 1 ≤ q)
    (hle : q ≤ pageQuantity) :
    ∃ h', allocatePages q h = some (searchAddress (chosen q h),h') ∧
      Descended h h' (pageLevels q) (chosen q h) ∧ HeapOk h' := by
  have hlev := pageLevels_le q
  have hfit := fits_root hlev
  obtain ⟨h',he,hd⟩ := getPagesRecursive_spec treeLevels (pageLevels q) (by omega) hfit
    (show pageLevels q < 12 by omega) hok.bases hok.root
  have hnot : ¬ ((q : ℤ) = 0 ∨ (q : ℤ) > pageQuantity) := by omega
  refine ⟨h',by rw [allocatePages,if_neg hnot,getPages_eq hq hle,he]; rfl,hd,?_,hd.bases,?_,?_⟩
  · rw [hd.usage]
    cases hc : firstFree h.blockUsage (pageLevels q) 1 with
    | none => exact hok.tree
    | some n =>
      have hr := firstFree_route hc
      exact (hok.tree.marked (by omega) hfit hc).treeOk hok.tree hr.start (hfit.node hr.start)
  · rw [hd.grow 1 hok.root]
    exact hok.root
  · intro i hi hle ha
    rw [hd.usage] at ha
    cases hc : firstFree h.blockUsage (pageLevels q) 1 with
    | none =>
      rw [hc] at ha
      have hk := hok.known i hi hle ha
      rw [hd.grow i hk]
      exact hk
    | some n =>
      rw [hc] at ha
      have hm := hok.tree.marked (by omega) hfit hc
      rcases (hm.allocated_iff (firstFree_route hc) i).mp ha with rfl | hold
      · exact hd.known i hc
      · have hk := hok.known i hi hle hold
        rw [hd.grow i hk]
        exact hk

structure Allocated (h h' : Heap) (q n : ℕ) : Prop where
  route : Route h.blockUsage (pageLevels q) 1 n
  marked : Marked h.blockUsage h'.blockUsage (pageLevels q) n
  base : h'.memoryBase n = nodeBase n
  pos : 0 < n
  inside : n ≤ heapSize

theorem Descended.allocated {h h' : Heap} (hok : HeapOk h) {q n : ℕ}
    (hd : Descended h h' (pageLevels q) (chosen q h)) (hc : chosen q h = some n) :
    Allocated h h' q n := by
  have hfit := fits_root (pageLevels_le q)
  have hr := firstFree_route hc
  have hn := hfit.node hr.start
  have hpos : 0 < n := Nat.pos_of_ne_zero (by
    rintro rfl
    simpa using hr.start)
  refine ⟨hr,?_,hd.bases.eq_nodeBase hpos hn (hd.known n hc),hpos,hn⟩
  rw [hd.usage,hc]
  exact hok.tree.marked (by omega) hfit hc

theorem HeapOk.base_eq {h : Heap} (hok : HeapOk h) {n : ℕ} (hn : 0 < n) (hle : n ≤ heapSize)
    (ha : h.blockUsage n = .allocated) : h.memoryBase n = nodeBase n :=
  hok.bases.eq_nodeBase hn hle (hok.known n hn hle ha)

/-- The block of a node spans exactly the leaves below it. -/
theorem mem_block {a n : ℕ} (hn : 0 < n) (hle : n ≤ heapSize) (hlo : nodeBase n ≤ a)
    (hhi : a < nodeBase n + blockBytes n) : InArena a ∧ Above n (leafOf a) := by
  have hd := depth_le_last hn hle
  have hpl := pow_depth_le hn
  have hpu := lt_pow_depth n
  simp only [nodeBase,blockBytes] at hlo hhi
  generalize depth n = d at *
  have harena : InArena a := by
    simp only [InArena,base,pageSize,pageQuantity_eq] at *
    interval_cases d <;> simp only [Nat.reducePow,Nat.reduceAdd,Nat.reduceDiv,Nat.reduceMul] at * <;>
      omega
  refine ⟨harena,11-d,?_⟩
  rw [leafOf,pageNumber_eq harena]
  simp only [InArena,base,pageSize,pageQuantity_eq] at *
  interval_cases d <;> simp only [Nat.reducePow,Nat.reduceAdd,Nat.reduceDiv,Nat.reduceSub,
    Nat.reduceMul] at * <;> omega

theorem block_in_arena {n : ℕ} (hn : 0 < n) (hle : n ≤ heapSize) :
    nodeBase n + blockBytes n ≤ base + pageSize*pageQuantity := by
  have hd := depth_le_last hn hle
  have hpu := lt_pow_depth n
  simp only [nodeBase,blockBytes]
  generalize depth n = d at *
  simp only [base,pageSize,pageQuantity_eq]
  interval_cases d <;> simp only [Nat.reducePow,Nat.reduceAdd,Nat.reduceDiv,Nat.reduceMul] at * <;>
    omega

theorem blockBytes_pos {n : ℕ} (hn : 0 < n) (hle : n ≤ heapSize) : 0 < blockBytes n := by
  have hd := depth_le_last hn hle
  rw [blockBytes]
  generalize depth n = d at hd
  interval_cases d <;> decide

/-- The base of a node is in the arena and its leaf is below the node. -/
theorem base_mem_block {n : ℕ} (hn : 0 < n) (hle : n ≤ heapSize) :
    InArena (nodeBase n) ∧ Above n (leafOf (nodeBase n)) :=
  mem_block hn hle le_rfl (Nat.lt_add_of_pos_right (blockBytes_pos hn hle))

/-- Blocks of incomparable nodes do not meet. -/
theorem blocks_disjoint {i j : ℕ} (hi : 0 < i) (hile : i ≤ heapSize) (hj : 0 < j)
    (hjle : j ≤ heapSize) (hij : ¬ Above i j) (hji : ¬ Above j i) :
    nodeBase i + blockBytes i ≤ nodeBase j ∨ nodeBase j + blockBytes j ≤ nodeBase i := by
  by_contra h
  push Not at h
  have hbi := blockBytes_pos hi hile
  have hbj := blockBytes_pos hj hjle
  rcases Nat.le_total (nodeBase i) (nodeBase j) with hle | hle
  · have h1 := (mem_block hi hile hle h.1).2
    have h2 := (base_mem_block hj hjle).2
    exact (h1.linear h2).elim hij hji
  · have h1 := (mem_block hj hjle hle h.2).2
    have h2 := (base_mem_block hi hile).2
    exact (h1.linear h2).elim hji hij

structure Released (h h' : Heap) (n : ℕ) : Prop where
  ok : HeapOk h'
  bases : h'.memoryBase = h.memoryBase
  allocated_iff : ∀ i, 0 < i → i ≤ heapSize →
    (h'.blockUsage i = .allocated ↔ h.blockUsage i = .allocated ∧ i ≠ n)

theorem treeOkBut_leaf {u : ℕ → Usage} (hu : TreeOk u) {l : ℕ} (hlo : pageQuantity ≤ l) :
    TreeOkBut (Function.update u l .unused) (l/2) := by
  constructor
  · intro j hj hb hne
    have hjl : j ≠ l := by omega
    have hl : left j ≠ l := by simp only [left]; omega
    have hr : right j ≠ l := by simp only [right]; omega
    exact (hu.node j hj hb).congr (Function.update_of_ne hjl _ _)
      (Function.update_of_ne hl _ _) (Function.update_of_ne hr _ _)
  · intro j hj hhi
    by_cases he : j = l
    · simp [he]
    · rw [Function.update_of_ne he]
      exact hu.leaf j hj hhi

/-- `freeMemory` on an arena address after the ownership test. -/
theorem freeMemory_eq {h : Heap} {a : ℕ} (ha : InArena a) (b : Bool)
    (hb : isAllocatedPage h a = some b) :
    freeMemory a h = if b then
      (freeMemoryRecursive treeLevels (leafOf a/2) (h.setUsage (leafOf a) .unused)).map (true,·)
      else some (false,h) := by
  have hl := leafOf_bounds ha
  have hnode : (toInt (pageNumber a) + (heapSize/2 : ℕ) + 1).toNat = leafOf a := by
    simp only [leafOf,pageQuantity_eq,heapSize_eq] at *
    rw [toInt_eq (by simp only [heapSize_eq]; omega)]
    omega
  have hpos : 0 < leafOf a := by rw [pageQuantity_eq] at hl; omega
  have hbody : ∀ node, node = leafOf a →
      (h.usageAt node).bind (fun _ =>
        (freeMemoryRecursive treeLevels (parent node) (h.setUsage node .unused)).bind
          (fun h => some (true,h))) =
      (freeMemoryRecursive treeLevels (leafOf a/2) (h.setUsage (leafOf a) .unused)).map
        (true,·) := by
    rintro _ rfl
    rw [h.usageAt_eq hpos hl.2,Option.bind_some,parent,Option.map_eq_bind]
    rfl
  unfold freeMemory
  rw [hb,Option.bind_eq_bind,Option.bind_some]
  cases b with
  | false => exact (if_neg Bool.false_ne_true).trans (if_neg Bool.false_ne_true).symm
  | true =>
    rw [if_pos rfl,if_pos rfl]
    exact hbody _ hnode

/-- The upward search for an address of the arena comes to an end. -/
theorem isAllocatedPage_isSome {h : Heap} (hok : HeapOk h) {a : ℕ} (ha : InArena a) :
    ∃ b, isAllocatedPage h a = some b := by
  have hl := leafOf_bounds ha
  obtain ⟨b,hb,-⟩ := isAllocatedPageRecursive_spec hok.tree a treeLevels
    (show leafOf a < 2^12 by rw [heapSize_eq] at hl; omega) hl.2
  rw [← isAllocatedPage_eq ha] at hb
  exact ⟨b,hb⟩

/-- The search from NULL starts at a node of the arrays, and no block starts there. -/
theorem isAllocatedPage_null {h : Heap} (hok : HeapOk h) : isAllocatedPage h null = some false := by
  obtain ⟨b,hb,hiff⟩ := isAllocatedPageRecursive_spec hok.tree null treeLevels
    (show 512 < 2^12 by decide) (show 512 ≤ heapSize by decide)
  have hstart : toInt (pageNumber null + 1) + (heapSize/2 : ℕ) = (512 : ℕ) := by decide
  unfold isAllocatedPage
  rw [hstart,hb]
  cases b with
  | false => rfl
  | true =>
    obtain ⟨n,hn,hab,hal,hbase⟩ := hiff.mp rfl
    have hle : n ≤ heapSize := hab.le.trans (by decide)
    rw [hok.base_eq hn hle hal] at hbase
    exact absurd hbase (nodeBase_ne_null n)

/-- On an arena address `freeMemory` answers whether a block starts there and removes it. -/
theorem freeMemory_spec {h : Heap} (hok : HeapOk h) {a : ℕ} (ha : InArena a) :
    (freeMemory a h = some (false,h) ∧
      ∀ n, 0 < n → n ≤ heapSize → h.blockUsage n = .allocated → nodeBase n ≠ a) ∨
    ∃ h' n, freeMemory a h = some (true,h') ∧ 0 < n ∧ n ≤ heapSize ∧
      h.blockUsage n = .allocated ∧ nodeBase n = a ∧ Released h h' n := by
  have hl := leafOf_bounds ha
  have hhalf : leafOf a/2 < pageQuantity := by
    simp only [heapSize_eq,pageQuantity_eq] at *; omega
  have hlpos : 0 < leafOf a := by rw [pageQuantity_eq] at hl; omega
  obtain ⟨b,hb,hiff⟩ := isAllocatedPageRecursive_spec hok.tree a treeLevels
    (show leafOf a < 2^12 by rw [heapSize_eq] at hl; omega) hl.2
  rw [← isAllocatedPage_eq ha] at hb
  rw [freeMemory_eq ha b hb]
  cases b with
  | false =>
    refine Or.inl ⟨rfl,fun n hn hle hal hbase => ?_⟩
    have hab := (base_mem_block hn hle).2
    rw [hbase] at hab
    have := hiff.mpr ⟨n,hn,hab,hal,by rw [hok.base_eq hn hle hal,hbase]⟩
    cases this
  | true =>
    obtain ⟨n,hn,hab,hal,hbase⟩ := hiff.mp rfl
    have hle : n ≤ heapSize := hab.le.trans hl.2
    have hnb : nodeBase n = a := by rw [← hok.base_eq hn hle hal,hbase]
    obtain ⟨h',he,hw⟩ := freeMemoryRecursive_walked 11 (h := h.setUsage (leafOf a) .unused)
      (by simpa [pageQuantity_eq] using hhalf) hhalf (treeOkBut_leaf hok.tree hl.1)
    have hfree : freeMemoryRecursive treeLevels (leafOf a/2) (h.setUsage (leafOf a) .unused) =
        some h' := he
    refine Or.inr ⟨h',n,by simp [hfree],hn,hle,hal,hnb,?_⟩
    have hiff' : ∀ i, 0 < i → i ≤ heapSize →
        (h'.blockUsage i = .allocated ↔ h.blockUsage i = .allocated ∧ i ≠ n) := by
      intro i hi hile
      have honly : Above i (leafOf a) → h.blockUsage i = .allocated → i = n := fun hai hui =>
        (hai.linear hab).elim (fun hx => hok.tree.allocated_eq hi hle hx hui hal)
          (fun hx => (hok.tree.allocated_eq hn hile hx hal hui).symm)
      by_cases hp : Above i (leafOf a/2)
      · have hnot : h'.blockUsage i ≠ .allocated := by
          rcases hw.path i hi hp with hx | hx <;> simp [hx]
        exact iff_of_false hnot (fun hx => hx.2 (honly (hp.trans (above_half _)) hx.1))
      · rw [hw.other i hp,setUsage_blockUsage]
        by_cases hil : i = leafOf a
        · rw [hil,Function.update_self]
          refine iff_of_false (by simp) (fun hx => hx.2 ?_)
          exact hil ▸ honly (hil ▸ Above.refl _) (hil ▸ hx.1)
        · rw [Function.update_of_ne hil]
          refine ⟨fun hx => ⟨hx,?_⟩,And.left⟩
          rintro rfl
          exact (above_iff.mp hab).elim hil hp
    refine ⟨⟨hw.tree,?_,?_,?_⟩,hw.bases,hiff'⟩
    · intro i hi hile
      rw [hw.bases]
      exact hok.bases i hi hile
    · rw [hw.bases]
      exact hok.root
    · intro i hi hile hx
      rw [hw.bases]
      exact hok.known i hi hile ((hiff' i hi hile).mp hx).1

/-- Releasing a block right after its allocation restores the markers exactly. -/
theorem freeMemory_restores {h h' : Heap} {q n : ℕ} (hok : HeapOk h) (hok' : HeapOk h')
    (ha : Allocated h h' q n) :
    ∃ h'', freeMemory (nodeBase n) h' = some (true,h'') ∧ h''.blockUsage = h.blockUsage := by
  obtain ⟨harena,hab⟩ := base_mem_block ha.pos ha.inside
  obtain ⟨hlo,hhi⟩ := leafOf_bounds harena
  have hlpos : 0 < leafOf (nodeBase n) := by rw [pageQuantity_eq] at hlo; omega
  have hhalf : leafOf (nodeBase n)/2 < pageQuantity := by
    simp only [heapSize_eq,pageQuantity_eq] at *; omega
  obtain ⟨b,hb,hiff⟩ := isAllocatedPageRecursive_spec hok'.tree (nodeBase n) treeLevels
    (show leafOf (nodeBase n) < 2^12 by rw [heapSize_eq] at hhi; omega) hhi
  rw [← isAllocatedPage_eq harena,hiff.mpr ⟨n,ha.pos,hab,ha.marked.target,ha.base⟩] at hb
  rw [freeMemory_eq harena true hb,if_pos rfl]
  have hbelow : ∀ j, j ≤ heapSize → Above n j → h.blockUsage j = .unused := fun j hj hnj => by
    by_cases hne : n = j
    · exact hne ▸ ha.route.target
    · exact hok.tree.unused_below ha.pos hj hnj hne (Or.inl ha.route.target)
  have hpath : ∀ j, 0 < j → Above j (leafOf (nodeBase n)) →
      h.blockUsage j = .unused ∨ h.blockUsage j = .halfUsed := by
    intro j hj hja
    rcases hja.linear hab with ⟨m,rfl⟩ | hnj
    · rcases Nat.eq_zero_or_pos m with rfl | hm
      · exact Or.inl (by simpa using ha.route.target)
      · refine ha.route.inner m hm ?_
        -- past the root the quotient would be zero
        by_contra hgt
        have hz : n / 2^m ≤ n / 2^(pageLevels q + 1) :=
          Nat.div_le_div_left (Nat.pow_le_pow_right (by omega) (by omega)) (by positivity)
        rw [div_pow_succ,ha.route.start] at hz
        omega
    · exact Or.inl (hbelow j (hja.le.trans hhi) hnj)
  have hdiff : ∀ j, (h'.setUsage (leafOf (nodeBase n)) .unused).blockUsage j ≠ h.blockUsage j →
      0 < j ∧ Above j (leafOf (nodeBase n)/2) := by
    intro j hj
    by_cases hjl : j = leafOf (nodeBase n)
    · rw [hjl,setUsage_blockUsage,Function.update_self,hbelow _ hhi hab] at hj
      exact (hj rfl).elim
    · rw [setUsage_blockUsage,Function.update_of_ne hjl] at hj
      obtain ⟨m,hm,rfl⟩ : ∃ m, m ≤ pageLevels q ∧ n/2^m = j := by
        by_contra hno
        push Not at hno
        exact hj (ha.marked.other j hno)
      have hle : n / 2^pageLevels q ≤ n / 2^m :=
        Nat.div_le_div_left (Nat.pow_le_pow_right (by omega) hm) (by positivity)
      rw [ha.route.start] at hle
      have hup : Above (n/2^m) (leafOf (nodeBase n)) := Above.trans ⟨m,rfl⟩ hab
      exact ⟨by omega,(above_iff.mp hup).resolve_left hjl⟩
  obtain ⟨h'',he,hu,-⟩ := freeMemoryRecursive_restores 11
    (h := h'.setUsage (leafOf (nodeBase n)) .unused) (by simpa [pageQuantity_eq] using hhalf)
    hhalf hok.tree hdiff (fun j hj hja => hpath j hj (hja.trans (above_half _)))
  exact ⟨h'',congrArg (Option.map (true,·)) he,hu⟩

end ComplexOS.BuddyAllocator
