import ComplexOS.Heap.UsageTree

/-! # Marking a root path keeps the markers consistent

`markPath` is followed upwards from the chosen node. Each level changes one
ancestor, whose children are already final, so consistency is settled node by
node and every node off the path keeps its marker.
-/
namespace ComplexOS.BuddyAllocator
open BinaryNodes
variable {u v w : ℕ → Usage}

/-- Consistency reads three entries only. -/
theorem NodeOk.congr {i : ℕ} (h : NodeOk u i) (hi : v i = u i) (hl : v (left i) = u (left i))
    (hr : v (right i) = u (right i)) : NodeOk v i := by
  constructor
  · rw [hi,hl,hr]; exact h.clear
  · rw [hi,hl,hr]; exact h.half
  · rw [hi,hl,hr]; exact h.full

/-- The markers `v` arise from `u` by allocating `n` and rewriting `levels` ancestors. -/
structure Marked (u v : ℕ → Usage) (levels n : ℕ) : Prop where
  target : v n = .allocated
  other : ∀ j, (∀ m, m ≤ levels → n/2^m ≠ j) → v j = u j
  inner : ∀ m, 0 < m → m ≤ levels → v (n/2^m) = .halfUsed ∨ v (n/2^m) = .fullyUsed
  ok : ∀ m, m ≤ levels → n/2^m < pageQuantity → NodeOk v (n/2^m)

theorem Marked.used {levels n m : ℕ} (h : Marked u v levels n) (hm : m ≤ levels) :
    v (n/2^m) ≠ .unused := by
  cases m with
  | zero => simp [h.target]
  | succ m => rcases h.inner (m+1) (by omega) hm with hv | hv <;> simp [hv]

/-- Rewriting the next ancestor extends a marking by one level. -/
theorem Marked.extend {levels n i : ℕ} (h : Marked u v levels n) (hi : 0 < i)
    (hc : n / 2^(levels+1) = i) (hother : ∀ j, j ≠ i → w j = v j)
    (hw : w i = .halfUsed ∨ w i = .fullyUsed) (hok : NodeOk w i) : Marked u w (levels+1) n := by
  have hlt : ∀ m, m ≤ levels → i < n/2^m := by
    intro m hm
    have hle : n / 2^levels ≤ n / 2^m :=
      Nat.div_le_div_left (Nat.pow_le_pow_right (by omega) hm) (by positivity)
    rw [div_pow_succ] at hc
    omega
  have hsame : ∀ m, m ≤ levels → w (n/2^m) = v (n/2^m) := fun m hm =>
    hother _ (Nat.ne_of_gt (hlt m hm))
  constructor
  · simpa [h.target] using hsame 0 (by omega)
  · intro j hj
    have hji : j ≠ i := fun he => hj (levels+1) le_rfl (by rw [hc,he])
    rw [hother j hji]
    exact h.other j (fun m hm => hj m (by omega))
  · intro m hm hle
    rcases Nat.lt_or_ge levels m with hgt | hge
    · have : m = levels+1 := by omega
      rw [this,hc]
      exact hw
    · rw [hsame m hge]
      exact h.inner m hm hge
  · intro m hle hb
    rcases Nat.lt_or_ge levels m with hgt | hge
    · have : m = levels+1 := by omega
      rw [this,hc]
      exact hok
    · have hgt := hlt m hge
      exact (h.ok m hge hb).congr (hsame m hge)
        (hother _ (by simp only [left]; omega)) (hother _ (by simp only [right]; omega))

/-- The search and the marking agree with the local invariant at every level. -/
theorem TreeOk.marked (hu : TreeOk u) {levels i n : ℕ} (hi : 0 < i) (hfit : Fits levels i)
    (h : firstFree u levels i = some n) : Marked u (markPath u n levels) levels n := by
  induction levels generalizing i with
  | zero =>
    have hr := firstFree_route h
    have hni : n = i := by simpa using hr.start
    have hpos : 0 < n := by omega
    refine ⟨by simp [markPath],fun j hj => ?_,by omega,fun m hm hb => ?_⟩
    · have : j ≠ n := fun he => hj 0 le_rfl (by simp [he])
      simp [markPath,this]
    · have hm0 : m = 0 := by omega
      subst hm0
      simp only [pow_zero,Nat.div_one] at hb ⊢
      have hcl := (hu.node n hpos hb).clear (Or.inl hr.target)
      have hl : left n ≠ n := by simp only [left]; omega
      have hrn : right n ≠ n := by simp only [right]; omega
      exact ⟨fun _ => by simpa [markPath,hl,hrn] using hcl,by simp [markPath],by simp [markPath]⟩
  | succ levels ih =>
    have hs := (firstFree_route h).start
    have hinner := hfit.inner
    have hli : left i ≠ i := by simp only [left]; omega
    have hri : right i ≠ i := by simp only [right]; omega
    have hlr : right i ≠ left i := by simp only [left,right]; omega
    rw [firstFree] at h
    split at h
    · cases h
    · next hf =>
      rcases Option.or_eq_some_iff.mp h with hl | ⟨hnone,hr⟩
      · -- the left child was chosen: the node is half used whatever the right one is
        have hm := ih (by simp only [left]; omega) hfit.left hl
        have hc := (firstFree_route hl).start
        have hv := hm.used le_rfl
        rw [hc] at hv
        rw [markPath]
        simp only [hs,hc,↓reduceIte]
        refine hm.extend hi hs (fun j hj => by simp [hj]) (by simp) ?_
        exact ⟨by simp,fun _ => Or.inl (by simpa [hli] using hv),by simp⟩
      · -- the left child failed, so it is used, and the node itself was half used
        have hm := ih (by simp only [right]; omega) hfit.right hr
        have hc := (firstFree_route hr).start
        have hvr := hm.used le_rfl
        rw [hc] at hvr
        have hul : u (left i) ≠ .unused := by
          intro he
          obtain ⟨k,hk⟩ := hu.firstFree_isSome (by simp only [left]; omega) hfit.left he
          rw [hk] at hnone
          cases hnone
        have hui : u i = .halfUsed := by
          cases hcase : u i with
          | halfUsed => rfl
          | unused => exact (hul ((hu.node i hi hinner).clear (Or.inl hcase)).1).elim
          | fullyUsed => exact (hf (Or.inl hcase)).elim
          | allocated => exact (hf (Or.inr hcase)).elim
        have hoff : ∀ j, j < right i → markPath u n levels j = u j := by
          intro j hj
          refine hm.other j (fun m hle he => ?_)
          have : n / 2^levels ≤ n / 2^m :=
            Nat.div_le_div_left (Nat.pow_le_pow_right (by omega) hle) (by positivity)
          omega
        have hvl := hoff (left i) (by simp only [left,right]; omega)
        have hvi := hoff i (by simp only [right]; omega)
        rw [markPath]
        simp only [hs,hc,hlr,↓reduceIte]
        split
        · next hcond =>
          refine hm.extend hi hs (fun j hj => by simp [hj]) (by simp) ?_
          refine ⟨by simp,by simp,fun _ => ?_⟩
          simp only [Function.update_apply,hli,hri,↓reduceIte]
          constructor
          · have h1 := hcond.2
            cases hcase : markPath u n levels (left i) <;> simp_all [Usage.Full]
          · have h1 := hcond.1
            cases hcase : markPath u n levels (right i) <;> simp_all [Usage.Full]
        · refine hm.extend hi hs (fun _ _ => rfl) (Or.inl (hvi.trans hui)) ?_
          exact ⟨by simp [hvi,hui],fun _ => Or.inr hvr,by simp [hvi,hui]⟩

/-- A marking that reaches the root keeps the whole tree consistent. -/
theorem Marked.treeOk (hu : TreeOk u) {levels n : ℕ} (h : Marked u v levels n)
    (hroot : n / 2^levels = 1) (hn : n ≤ heapSize) : TreeOk v := by
  constructor
  · intro j hj hb
    by_cases hp : ∃ m, m ≤ levels ∧ n/2^m = j
    · obtain ⟨m,hm,rfl⟩ := hp
      exact h.ok m hm hb
    · push Not at hp
      have hchild : ∀ c, c/2 = j → v c = u c := by
        intro c hc
        refine h.other c (fun m hm he => ?_)
        have hup : n / 2^(m+1) = j := by rw [div_pow_succ,he,hc]
        rcases Nat.lt_or_ge m levels with hlt | hge
        · exact hp (m+1) (by omega) hup
        · have : m = levels := by omega
          subst this
          omega
      exact (hu.node j hj hb).congr (h.other j hp)
        (hchild _ (by simp [left])) (hchild _ (by simp only [right]; omega))
  · intro j hlo hhi
    by_cases hp : ∃ m, m ≤ levels ∧ n/2^m = j
    · obtain ⟨m,hm,rfl⟩ := hp
      cases m with
      | zero => exact Or.inr (by simpa using h.target)
      | succ m =>
        have : n / 2^(m+1) ≤ n / 2 := by
          rw [div_pow_succ]
          exact Nat.div_le_div_right (Nat.div_le_self _ _)
        simp only [heapSize_eq,pageQuantity_eq] at *
        omega
    · push Not at hp
      rw [h.other j hp]
      exact hu.leaf j hlo hhi

/-- The allocated nodes are the old ones and the chosen one. -/
theorem Marked.allocated_iff {levels i n : ℕ} (h : Marked u v levels n) (hr : Route u levels i n)
    (j : ℕ) : v j = .allocated ↔ j = n ∨ u j = .allocated := by
  by_cases hp : ∃ m, m ≤ levels ∧ n/2^m = j
  · obtain ⟨m,hm,rfl⟩ := hp
    cases m with
    | zero => simp [h.target]
    | succ m =>
      have hv := h.inner (m+1) (by omega) hm
      have hu := hr.inner (m+1) (by omega) hm
      constructor
      · intro he
        rcases hv with hv | hv <;> simp [hv] at he
      · rintro (he | he)
        · have ht := h.target
          rw [← he] at ht
          exact ht
        · rcases hu with hu | hu <;> simp [hu] at he
  · push Not at hp
    have hne : j ≠ n := fun he => hp 0 (by omega) (by simp [he])
    simp [h.other j hp,hne]

end ComplexOS.BuddyAllocator
