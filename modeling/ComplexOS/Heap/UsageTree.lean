import ComplexOS.Heap.BuddyAllocator

/-! # Consistent usage markers and the first-fit search

The joint invariant is local: each inner node agrees with its two children.
The global facts (nothing used below an unused or allocated node, no free page
below a fully used one) follow along root paths. The search and the marking of
its root path are stated without the heap's arrays.
-/
namespace ComplexOS.BuddyAllocator
open BinaryNodes

/-- Markers of a node without a free page below it. -/
def Usage.Full (u : Usage) : Prop := u = .allocated ∨ u = .fullyUsed

structure NodeOk (u : ℕ → Usage) (i : ℕ) : Prop where
  clear : u i = .unused ∨ u i = .allocated → u (left i) = .unused ∧ u (right i) = .unused
  half : u i = .halfUsed → u (left i) ≠ .unused ∨ u (right i) ≠ .unused
  full : u i = .fullyUsed → (u (left i)).Full ∧ (u (right i)).Full

structure TreeOk (u : ℕ → Usage) : Prop where
  node : ∀ i, 0 < i → i < pageQuantity → NodeOk u i
  leaf : ∀ i, pageQuantity ≤ i → i ≤ heapSize → u i = .unused ∨ u i = .allocated

theorem treeOk_unused : TreeOk (fun _ => .unused) :=
  ⟨fun _ _ _ => ⟨by simp,by simp,by simp⟩,by simp⟩

theorem heapSize_eq : heapSize = 4095 := rfl
theorem pageQuantity_eq : pageQuantity = 2048 := rfl

/-- A node is one of the two children of its half. -/
theorem eq_left_or_right (i : ℕ) : i = left (i/2) ∨ i = right (i/2) := by
  simp only [left,right]
  omega

theorem NodeOk.child_clear {u : ℕ → Usage} {i : ℕ} (h : NodeOk u (i/2))
    (hc : u (i/2) = .unused ∨ u (i/2) = .allocated) : u i = .unused := by
  have hb := h.clear hc
  rcases eq_left_or_right i with he | he
  · rw [he]; exact hb.1
  · rw [he]; exact hb.2

theorem NodeOk.child_full {u : ℕ → Usage} {i : ℕ} (h : NodeOk u (i/2))
    (hc : u (i/2) = .fullyUsed) : (u i).Full := by
  have hb := h.full hc
  rcases eq_left_or_right i with he | he
  · rw [he]; exact hb.1
  · rw [he]; exact hb.2

namespace TreeOk
variable {u : ℕ → Usage} (hu : TreeOk u)
include hu

/-- Every strict descendant of an unused or allocated node is unused. -/
theorem unused_below {j i : ℕ} (hj : 0 < j) (hi : i ≤ heapSize) (ha : Above j i) (hne : j ≠ i)
    (hc : u j = .unused ∨ u j = .allocated) : u i = .unused := by
  induction i using Nat.strong_induction_on with
  | _ i ih =>
    rcases above_iff.mp ha with he | hp
    · exact (hne he).elim
    · have hpos : 0 < i/2 := lt_of_lt_of_le hj hp.le
      have hok := hu.node (i/2) hpos (by simp only [heapSize_eq,pageQuantity_eq] at *; omega)
      by_cases he : j = i/2
      · exact hok.child_clear (he ▸ hc)
      · exact hok.child_clear (Or.inl (ih (i/2) (by omega) (by omega) hp he))

/-- Below a fully used node every node is fully used or inside an allocated block. -/
theorem full_below {j i : ℕ} (hj : 0 < j) (hi : i ≤ heapSize) (ha : Above j i)
    (hf : u j = .fullyUsed) :
    u i = .fullyUsed ∨ ∃ n, Above j n ∧ Above n i ∧ u n = .allocated := by
  induction i using Nat.strong_induction_on with
  | _ i ih =>
    rcases above_iff.mp ha with rfl | hp
    · exact Or.inl hf
    · have hpos : 0 < i/2 := lt_of_lt_of_le hj hp.le
      have hok := hu.node (i/2) hpos (by simp only [heapSize_eq,pageQuantity_eq] at *; omega)
      rcases ih (i/2) (by omega) (by omega) hp with h | ⟨n,hjn,hni,hn⟩
      · rcases hok.child_full h with h' | h'
        · exact Or.inr ⟨i,ha,Above.refl i,h'⟩
        · exact Or.inl h'
      · exact Or.inr ⟨n,hjn,hni.trans (above_half i),hn⟩

/-- Two allocated nodes are never on one root path. -/
theorem allocated_eq {i j : ℕ} (hi : 0 < i) (hj : j ≤ heapSize) (ha : Above i j)
    (hui : u i = .allocated) (huj : u j = .allocated) : i = j := by
  by_contra hne
  have := hu.unused_below hi hj ha hne (Or.inr hui)
  rw [this] at huj
  cases huj

/-- A node that is used has an allocated node below it. -/
theorem allocated_below {i : ℕ} (hi : 0 < i) (hle : i ≤ heapSize) (hx : u i ≠ .unused) :
    ∃ k, Above i k ∧ k ≤ heapSize ∧ u k = .allocated := by
  induction hk : heapSize - i using Nat.strong_induction_on generalizing i with
  | _ k ih =>
    by_cases hl : pageQuantity ≤ i
    · exact ⟨i,Above.refl i,hle,(hu.leaf i hl hle).resolve_left hx⟩
    · have hr : right i ≤ heapSize := by
        simp only [right,heapSize_eq,pageQuantity_eq] at *
        omega
      have hchild : ∀ c, c/2 = i → c ≤ heapSize → u c ≠ .unused →
          ∃ k, Above i k ∧ k ≤ heapSize ∧ u k = .allocated := by
        intro c hc hcle hcu
        obtain ⟨n,hcn,hn,hal⟩ := ih (heapSize - c) (by omega) (by omega) hcle hcu rfl
        exact ⟨n,(hc ▸ above_half c).trans hcn,hn,hal⟩
      have hleft : left i/2 = i := by simp only [left]; omega
      have hright : right i/2 = i := by simp only [right]; omega
      have hlle : left i ≤ heapSize := le_trans (Nat.le_succ _) hr
      have hok := hu.node i hi (by omega)
      cases h : u i with
      | unused => exact (hx h).elim
      | allocated => exact ⟨i,Above.refl i,hle,h⟩
      | halfUsed =>
        rcases hok.half h with hc | hc
        · exact hchild _ hleft hlle hc
        · exact hchild _ hright hr hc
      | fullyUsed =>
        refine hchild _ hleft hlle (fun hc => ?_)
        simpa [hc,Usage.Full] using (hok.full h).1

/-- Without allocated nodes there is no residue: every node is unused. -/
theorem unused_of_no_allocated (hn : ∀ i, 0 < i → i ≤ heapSize → u i ≠ .allocated)
    {i : ℕ} (hpos : 0 < i) (hi : i ≤ heapSize) : u i = .unused := by
  by_contra hx
  obtain ⟨k,hik,hk,hal⟩ := hu.allocated_below hpos hi hx
  exact hn k (hpos.trans_le hik.le) hk hal

end TreeOk

/-- The node `getPagesRecursive` chooses `levels` below `i`, if it chooses one. -/
def firstFree (u : ℕ → Usage) : ℕ → ℕ → Option ℕ
  | 0, i => if u i = .unused then some i else none
  | levels+1, i =>
    if u i = .fullyUsed ∨ u i = .allocated then none
    else (firstFree u levels (left i)).or (firstFree u levels (right i))

/-- The markers after node `n` was allocated and `levels` of its ancestors were
rewritten on the way back. -/
def markPath (u : ℕ → Usage) (n : ℕ) : ℕ → ℕ → Usage
  | 0 => Function.update u n .allocated
  | levels+1 =>
    let v := markPath u n levels
    let i := n / 2^(levels+1)
    if n / 2^levels = left i then Function.update v i .halfUsed
    else if v (right i) ≠ .halfUsed ∧ v (left i) ≠ .halfUsed then Function.update v i .fullyUsed
    else v

structure Route (u : ℕ → Usage) (levels i n : ℕ) : Prop where
  start : n / 2^levels = i
  target : u n = .unused
  inner : ∀ m, 0 < m → m ≤ levels → u (n/2^m) = .unused ∨ u (n/2^m) = .halfUsed

theorem div_pow_succ (n k : ℕ) : n / 2^(k+1) = n / 2^k / 2 := by
  rw [pow_succ,Nat.div_div_eq_div_mul]

theorem Route.step {u : ℕ → Usage} {levels c i n : ℕ} (h : Route u levels c n) (hc : c/2 = i)
    (hf : ¬ (u i = .fullyUsed ∨ u i = .allocated)) : Route u (levels+1) i n := by
  have hs : n / 2^(levels+1) = i := by rw [div_pow_succ,h.start,hc]
  refine ⟨hs,h.target,fun m hm hle => ?_⟩
  rcases Nat.lt_or_ge levels m with hlt | hge
  · have : m = levels+1 := by omega
    subst this
    rw [hs]
    cases hu : u i <;> simp_all
  · exact h.inner m hm hge

theorem firstFree_route {u : ℕ → Usage} {levels i n : ℕ} (h : firstFree u levels i = some n) :
    Route u levels i n := by
  induction levels generalizing i with
  | zero =>
    simp only [firstFree,Option.ite_none_right_eq_some,Option.some.injEq] at h
    obtain ⟨hu,rfl⟩ := h
    exact ⟨by simp,hu,by omega⟩
  | succ levels ih =>
    rw [firstFree] at h
    split at h
    · cases h
    · next hf =>
      rcases Option.or_eq_some_iff.mp h with hl | ⟨_,hr⟩
      · exact (ih hl).step (by simp [left]) hf
      · exact (ih hr).step (by simp only [right]; omega) hf

def Fits (levels i : ℕ) : Prop := (i+1) * 2^levels ≤ heapSize + 1

theorem Fits.left {levels i : ℕ} (h : Fits (levels+1) i) : Fits levels (left i) := by
  simp only [Fits,BuddyAllocator.left,pow_succ] at *
  nlinarith [Nat.zero_le (2^levels)]

theorem Fits.right {levels i : ℕ} (h : Fits (levels+1) i) : Fits levels (right i) := by
  simp only [Fits,BuddyAllocator.right,pow_succ] at *
  nlinarith [Nat.zero_le (2^levels)]

theorem Fits.inner {levels i : ℕ} (h : Fits (levels+1) i) : i < pageQuantity := by
  have hp : 1 ≤ 2^levels := Nat.one_le_two_pow
  simp only [Fits,heapSize_eq,pageQuantity_eq,pow_succ] at *
  nlinarith

/-- Every node of the level is inside the arrays. -/
theorem Fits.node {levels i n : ℕ} (h : Fits levels i) (hn : n / 2^levels = i) : n ≤ heapSize := by
  have hlt : n < (i+1) * 2^levels := by
    have := Nat.lt_mul_div_succ n (show 0 < 2^levels by positivity)
    rw [hn,Nat.mul_comm] at this
    exact this
  simp only [Fits] at h
  omega

/-- The search below an unused node always succeeds. -/
theorem TreeOk.firstFree_isSome {u : ℕ → Usage} (hu : TreeOk u) {levels i : ℕ} (hi : 0 < i)
    (hfit : Fits levels i) (h : u i = .unused) : ∃ n, firstFree u levels i = some n := by
  induction levels generalizing i with
  | zero => exact ⟨i,by simp [firstFree,h]⟩
  | succ levels ih =>
    have hl := ((hu.node i hi hfit.inner).clear (Or.inl h)).1
    obtain ⟨n,hn⟩ := ih (by simp only [left]; omega) hfit.left hl
    exact ⟨n,by simp [firstFree,h,hn]⟩

end ComplexOS.BuddyAllocator
