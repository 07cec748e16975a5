import ComplexOS.Heap.Allocation

/-! # Release walks one root path up from a leaf

The walk starts at the leaf of the address, possibly below the freed block. Each
ancestor is recomputed from its two children, so consistency returns level by
level; where the markers differ from an earlier consistent tree only on the
walked path, the walk restores that tree exactly.
-/
namespace ComplexOS.BuddyAllocator
open BinaryNodes

structure HeapOk (h : Heap) : Prop where
  tree : TreeOk h.blockUsage
  bases : BasesOk h
  root : h.memoryBase 1 ≠ null
  known : ∀ i, 0 < i → i ≤ heapSize → h.blockUsage i = .allocated → h.memoryBase i ≠ null

theorem initializeHeap_ok : HeapOk initializeHeap := by
  refine ⟨treeOk_unused,?_,by decide,fun _ _ _ h => by cases h⟩
  intro i _ _
  by_cases hi : i = 1
  · subst hi
    exact Or.inr (by decide)
  · exact Or.inl (by simp [initializeHeap,hi])

/-- The marker an activation of `freeMemoryRecursive` writes. -/
def refreshed (u : ℕ → Usage) (i : ℕ) : Usage :=
  if u (left i) = .unused ∧ u (right i) = .unused then .unused else .halfUsed

theorem refreshUsage_eq (i : ℕ) (h : Heap) :
    refreshUsage i h = h.setUsage i (refreshed h.blockUsage i) := by
  unfold refreshUsage refreshed
  cases h.blockUsage (left i) <;> cases h.blockUsage (right i) <;> simp [Heap.setUsage]

theorem refreshed_cases (u : ℕ → Usage) (i : ℕ) :
    refreshed u i = .unused ∨ refreshed u i = .halfUsed := by
  unfold refreshed
  split <;> simp

/-- Writing the recomputed marker makes the node agree with its children. -/
theorem nodeOk_refreshed (u : ℕ → Usage) {i : ℕ} (hi : 0 < i) :
    NodeOk (Function.update u i (refreshed u i)) i := by
  have hl : left i ≠ i := by simp only [left]; omega
  have hr : right i ≠ i := by simp only [right]; omega
  constructor <;> simp only [Function.update_self,Function.update_of_ne hl,
    Function.update_of_ne hr,refreshed] <;> split <;> simp_all
  tauto

/-- Recomputing a marker that agreed with its children changes nothing. -/
theorem NodeOk.refreshed_eq {u : ℕ → Usage} {i : ℕ} (h : NodeOk u i)
    (hu : u i = .unused ∨ u i = .halfUsed) : refreshed u i = u i := by
  unfold refreshed
  rcases hu with hu | hu
  · simp [hu,h.clear (Or.inl hu)]
  · rw [hu]
    rcases h.half hu with hc | hc <;> simp [hc]

/-- Consistent everywhere except at the node about to be recomputed. -/
structure TreeOkBut (u : ℕ → Usage) (i : ℕ) : Prop where
  node : ∀ j, 0 < j → j < pageQuantity → j ≠ i → NodeOk u j
  leaf : ∀ j, pageQuantity ≤ j → j ≤ heapSize → u j = .unused ∨ u j = .allocated

theorem TreeOkBut.refresh {u : ℕ → Usage} {i : ℕ} (h : TreeOkBut u i) (hi : 0 < i)
    (hb : i < pageQuantity) : TreeOkBut (Function.update u i (refreshed u i)) (i/2) := by
  constructor
  · intro j hj hjb hne
    by_cases he : j = i
    · subst he
      exact nodeOk_refreshed u hj
    · have hl : left j ≠ i := by simp only [left]; omega
      have hr : right j ≠ i := by simp only [right]; omega
      exact (h.node j hj hjb he).congr (Function.update_of_ne he _ _)
        (Function.update_of_ne hl _ _) (Function.update_of_ne hr _ _)
  · intro j hlo hhi
    rw [Function.update_of_ne (by omega)]
    exact h.leaf j hlo hhi

theorem freeMemoryRecursive_zero (fuel : ℕ) (h : Heap) :
    freeMemoryRecursive (fuel+1) 0 h = some h := by
  simp [freeMemoryRecursive]

theorem freeMemoryRecursive_pos {fuel i : ℕ} (hi : 0 < i) (hb : i < pageQuantity) (h : Heap) :
    freeMemoryRecursive (fuel+1) i h =
      freeMemoryRecursive fuel (i/2) (h.setUsage i (refreshed h.blockUsage i)) := by
  have hin : InArray (right i) := by
    simp only [InArray,right,heapSize_eq,pageQuantity_eq] at *
    omega
  rw [freeMemoryRecursive,if_pos hi,if_pos hin,refreshUsage_eq,parent]

structure Walked (h h' : Heap) (i : ℕ) : Prop where
  tree : TreeOk h'.blockUsage
  bases : h'.memoryBase = h.memoryBase
  other : ∀ j, ¬ Above j i → h'.blockUsage j = h.blockUsage j
  path : ∀ j, 0 < j → Above j i → h'.blockUsage j = .unused ∨ h'.blockUsage j = .halfUsed

theorem freeMemoryRecursive_walked (fuel : ℕ) {i : ℕ} {h : Heap} (hfuel : i < 2^fuel)
    (hb : i < pageQuantity) (hok : TreeOkBut h.blockUsage i) :
    ∃ h', freeMemoryRecursive (fuel+1) i h = some h' ∧ Walked h h' i := by
  induction fuel generalizing i h with
  | zero =>
    have hi : i = 0 := by simpa using hfuel
    subst hi
    refine ⟨h,freeMemoryRecursive_zero 0 h,⟨fun j hj hjb => ?_,hok.leaf⟩,rfl,fun _ _ => rfl,?_⟩
    · exact hok.node j hj hjb (by omega)
    · intro j hj ha
      have := ha.le
      omega
  | succ fuel ih =>
    rcases Nat.eq_zero_or_pos i with rfl | hi
    · refine ⟨h,freeMemoryRecursive_zero _ h,⟨fun j hj hjb => ?_,hok.leaf⟩,rfl,fun _ _ => rfl,?_⟩
      · exact hok.node j hj hjb (by omega)
      · intro j hj ha
        have := ha.le
        omega
    · have hhalf : i/2 < pageQuantity := lt_of_le_of_lt (Nat.div_le_self _ _) hb
      rw [freeMemoryRecursive_pos hi hb]
      have hok' : TreeOkBut (h.setUsage i (refreshed h.blockUsage i)).blockUsage (i/2) :=
        hok.refresh hi hb
      obtain ⟨h',he,hw⟩ := ih (by rw [pow_succ] at hfuel; omega) hhalf hok'
      refine ⟨h',he,hw.tree,hw.bases,fun j hj => ?_,fun j hj ha => ?_⟩
      · have hji : j ≠ i := fun h0 => hj (h0 ▸ Above.refl i)
        rw [hw.other j (fun h0 => hj (h0.trans (above_half i)))]
        exact Function.update_of_ne hji _ _
      · rcases above_iff.mp ha with rfl | hup
        · have hself : ¬ Above j (j/2) := fun h0 => by
            have := h0.le
            omega
          rw [hw.other j hself]
          simpa using refreshed_cases h.blockUsage j
        · exact hw.path j hj hup

/-- The walk restores a consistent tree that the markers leave only on the walked path. -/
theorem freeMemoryRecursive_restores (fuel : ℕ) {i : ℕ} {h : Heap} {u : ℕ → Usage}
    (hfuel : i < 2^fuel) (hb : i < pageQuantity) (hu : TreeOk u)
    (hdiff : ∀ j, h.blockUsage j ≠ u j → 0 < j ∧ Above j i)
    (hpath : ∀ j, 0 < j → Above j i → u j = .unused ∨ u j = .halfUsed) :
    ∃ h', freeMemoryRecursive (fuel+1) i h = some h' ∧ h'.blockUsage = u ∧
      h'.memoryBase = h.memoryBase := by
  have hdone : i = 0 → h.blockUsage = u := by
    intro hi
    funext j
    by_contra hne
    obtain ⟨hpos,ha⟩ := hdiff j hne
    have := ha.le
    omega
  induction fuel generalizing i h with
  | zero =>
    have hi : i = 0 := by simpa using hfuel
    exact ⟨h,by rw [hi]; exact freeMemoryRecursive_zero 0 h,hdone hi,rfl⟩
  | succ fuel ih =>
    rcases Nat.eq_zero_or_pos i with hi | hi
    · exact ⟨h,by rw [hi]; exact freeMemoryRecursive_zero _ h,hdone hi,rfl⟩
    · rw [freeMemoryRecursive_pos hi hb]
      -- the children are off the walked path, so they already carry the markers of `u`
      have hchild : ∀ c, i < c → h.blockUsage c = u c := by
        intro c hc
        by_contra hne
        have := (hdiff c hne).2.le
        omega
      have hsame : refreshed h.blockUsage i = u i := by
        have hl := hchild (left i) (by simp only [left]; omega)
        have hr := hchild (right i) (by simp only [right]; omega)
        rw [← (hu.node i hi hb).refreshed_eq (hpath i hi (Above.refl i))]
        simp only [refreshed,hl,hr]
      have hdiff' : ∀ j, (h.setUsage i (refreshed h.blockUsage i)).blockUsage j ≠ u j →
          0 < j ∧ Above j (i/2) := by
        intro j hj
        by_cases hji : j = i
        · subst hji
          simp [hsame] at hj
        · rw [setUsage_blockUsage,Function.update_of_ne hji] at hj
          obtain ⟨hpos,ha⟩ := hdiff j hj
          exact ⟨hpos,(above_iff.mp ha).resolve_left hji⟩
      have hhalf : i/2 < pageQuantity := lt_of_le_of_lt (Nat.div_le_self _ _) hb
      refine ih (by rw [pow_succ] at hfuel; omega) hhalf hdiff'
        (fun j hj ha => hpath j hj (ha.trans (above_half i))) (fun h0 => ?_)
      funext j
      by_contra hne
      obtain ⟨hpos,ha⟩ := hdiff' j hne
      have := ha.le
      omega

/-- The leaf from which both walks of `freeMemory` start. -/
def leafOf (a : ℕ) : ℕ := pageNumber a + pageQuantity

def InArena (a : ℕ) : Prop := base ≤ a ∧ a < base + pageSize*pageQuantity

theorem pageNumber_eq {a : ℕ} (ha : InArena a) : pageNumber a = (a-base)/pageSize := by
  obtain ⟨hlo,hhi⟩ := ha
  simp only [pageNumber,base,pageSize,pageQuantity] at *
  omega

theorem leafOf_bounds {a : ℕ} (ha : InArena a) :
    pageQuantity ≤ leafOf a ∧ leafOf a ≤ heapSize := by
  rw [leafOf,pageNumber_eq ha]
  obtain ⟨hlo,hhi⟩ := ha
  simp only [base,pageSize,pageQuantity_eq,heapSize_eq] at *
  omega

theorem toInt_eq {x : ℕ} (hx : x ≤ heapSize) : toInt x = x := by
  simp only [heapSize_eq] at hx
  exact Int.bmod_eq_of_le (by omega) (by omega)

theorem isAllocatedPage_eq {h : Heap} {a : ℕ} (ha : InArena a) :
    isAllocatedPage h a = isAllocatedPageRecursive h a (treeLevels+1) (leafOf a) := by
  have hb := leafOf_bounds ha
  simp only [leafOf,pageQuantity_eq,heapSize_eq] at hb
  rw [isAllocatedPage,toInt_eq (by simp only [heapSize_eq]; omega)]
  congr 1

/-- The upward search answers whether an allocated node above the leaf has this base. -/
theorem isAllocatedPageRecursive_spec {h : Heap} (hu : TreeOk h.blockUsage) (a : ℕ) (fuel : ℕ)
    {l : ℕ} (hfuel : l < 2^fuel) (hl : l ≤ heapSize) :
    ∃ b, isAllocatedPageRecursive h a (fuel+1) l = some b ∧
      (b = true ↔ ∃ n, 0 < n ∧ Above n l ∧ h.blockUsage n = .allocated ∧ h.memoryBase n = a) := by
  have hzero : ∀ f, isAllocatedPageRecursive h a (f+1) ((0 : ℕ) : ℤ) = some false := fun f => by
    simp [isAllocatedPageRecursive]
  have hnone : ¬ ∃ n, 0 < n ∧ Above n 0 ∧ h.blockUsage n = .allocated ∧ h.memoryBase n = a := by
    rintro ⟨n,hn,ha,-⟩
    have := ha.le
    omega
  induction fuel generalizing l with
  | zero =>
    have h0 : l = 0 := by simpa using hfuel
    subst h0
    exact ⟨false,hzero 0,by simpa using hnone⟩
  | succ fuel ih =>
    rcases Nat.eq_zero_or_pos l with rfl | hpos
    · exact ⟨false,hzero _,by simpa using hnone⟩
    · have hhalf : ((l : ℕ) : ℤ)/2 = ((l/2 : ℕ) : ℤ) := by omega
      rw [isAllocatedPageRecursive,if_neg (by omega),Int.toNat_natCast,h.usageAt_eq hpos hl]
      simp only [Option.bind_eq_bind,Option.bind_some,hhalf]
      by_cases hhit : h.blockUsage l = .allocated ∧ h.memoryBase l = a
      · exact ⟨true,by simp [hhit],by simpa using ⟨l,hpos,Above.refl l,hhit⟩⟩
      · rw [if_neg hhit]
        by_cases hun : h.blockUsage l = .unused
        · rw [if_pos hun]
          obtain ⟨b,hb,hiff⟩ := ih (l := l/2) (by rw [pow_succ] at hfuel; omega) (by omega)
          refine ⟨b,hb,hiff.trans ⟨?_,?_⟩⟩
          · rintro ⟨n,hn,ha,hx⟩
            exact ⟨n,hn,ha.trans (above_half l),hx⟩
          · rintro ⟨n,hn,ha,hx⟩
            refine ⟨n,hn,(above_iff.mp ha).resolve_left ?_,hx⟩
            rintro rfl
            simp [hun] at hx
        · rw [if_neg hun]
          refine ⟨false,rfl,iff_of_false Bool.false_ne_true ?_⟩
          -- a strictly higher allocated node would leave this one unused
          rintro ⟨n,hn,ha,hx⟩
          have hne : n ≠ l := fun he => hhit (he ▸ hx)
          exact hun (hu.unused_below hn hl ha hne (Or.inr hx.1))

end ComplexOS.BuddyAllocator
