import ComplexOS.Heap.HeapEntries

/-! # The size that a request gets

`log2` rounds odd numbers up and even ones down, so the level of a request is high enough
for an odd page count and for a power of two. Every other page count is even and gets the
power of two below it.
-/
namespace ComplexOS.BuddyAllocator
open BinaryNodes

variable {s : RunState} {q n bytes : ℕ} {cs : List HeapCall}

/-- Pages of a node of the level that `getPages` descends to. -/
def levelPages (q : ℕ) : ℕ := pageQuantity / 2^pageLevels q

theorem levelPages_eq (hq : 2 ≤ q) (hle : q ≤ pageQuantity) :
    levelPages q = 2^(Nat.log 2 q + q % 2) := by
  have hl := log2_le_maxLevels (by omega) hle
  have hlog : log2 q = Nat.log 2 q + q % 2 := log2_eq (by rw [pageQuantity_eq] at hle; omega)
  have hp : pageQuantity = 2^maxLevels := by rw [maxLevels_eq]; rfl
  unfold levelPages pageLevels
  rw [if_neg (by omega),hp,Nat.pow_div (Nat.sub_le _ _) (by omega),Nat.sub_sub_self hl,hlog]

theorem levelPages_lt (hq : 1 ≤ q) (hle : q ≤ pageQuantity) : levelPages q < 2*q := by
  rcases Nat.eq_or_lt_of_le hq with rfl | hq
  · decide
  · have hlog : 2^(Nat.log 2 q) ≤ q := Nat.pow_log_le_self 2 (by omega)
    rw [levelPages_eq hq hle]
    rcases Nat.mod_two_eq_zero_or_one q with h | h
    · rw [h,Nat.add_zero]
      omega
    · -- an odd number is not the power of two below it
      have hne : 2^(Nat.log 2 q) ≠ q := by
        intro he
        have hlp : 0 < Nat.log 2 q := Nat.log_pos (by omega) hq
        obtain ⟨k,hk⟩ := Nat.exists_eq_succ_of_ne_zero hlp.ne'
        rw [hk,pow_succ] at he
        omega
      rw [h,pow_succ]
      omega

/-- The page counts that the rounding is right for. -/
theorem le_levelPages_iff (hq : 1 ≤ q) (hle : q ≤ pageQuantity) :
    q ≤ levelPages q ↔ q % 2 = 1 ∨ ∃ k, q = 2^k := by
  rcases Nat.eq_or_lt_of_le hq with rfl | hq
  · exact iff_of_true (by decide) (Or.inl rfl)
  · rw [levelPages_eq hq hle]
    have hlo : 2^(Nat.log 2 q) ≤ q := Nat.pow_log_le_self 2 (by omega)
    rcases Nat.mod_two_eq_zero_or_one q with h | h
    · rw [h,Nat.add_zero]
      constructor
      · exact fun hx => Or.inr ⟨_,le_antisymm hx hlo⟩
      · rintro (hx | ⟨k,rfl⟩)
        · omega
        · rw [Nat.log_pow (by omega)]
    · rw [h]
      exact iff_of_true (Nat.lt_pow_succ_log_self (by omega) q).le (Or.inl rfl)

/-- Whole pages are enough for the bytes exactly if they are as many as are counted for them. -/
theorem bytes_le_iff (hpos : 1 ≤ bytes) (hb : bytes ≤ pageSize*pageQuantity) (k : ℕ) :
    bytes ≤ k*pageSize ↔ pagesToAllocate bytes ≤ k := by
  obtain ⟨h1,-,hup,hlo⟩ := pagesToAllocate_bounds hpos hb
  generalize pagesToAllocate bytes = p at *
  simp only [pageSize] at *
  constructor
  · intro h
    by_contra hk
    have := Nat.mul_le_mul_right 0x1000 (show k ≤ p-1 by omega)
    omega
  · intro h
    exact hup.trans (Nat.mul_le_mul_right _ h)

/-- If the request is answered with an address, its node is large enough for the bytes and
smaller than twice the pages. -/
def SizeHonoured (s : RunState) (bytes : ℕ) : Prop :=
  ∃ x h, s.heap.allocateMemory bytes = some (x,h) ∧
    (x ≠ null → bytes ≤ blockBytes (newlyAllocated s.heap h) ∧
      blockBytes (newlyAllocated s.heap h) < 2*(pagesToAllocate bytes*pageSize))

/-- What an answered request is given. -/
theorem RunOk.allocatePages_node (hs : RunOk s) (hq : 1 ≤ q) (hle : q ≤ pageQuantity) :
    ∃ x h, allocatePages q s.heap = some (x,h) ∧
      (x = null ↔ ¬ ∃ n, 0 < n ∧ depth n = pageLevels q ∧ s.FreeNode n) ∧
      (x ≠ null → blockBytes (newlyAllocated s.heap h) = levelPages q*pageSize) := by
  obtain ⟨h,he,hd,-⟩ := allocatePages_spec hs.heap hq hle
  obtain ⟨x,h',he',hfit⟩ := hs.firstFit hq hle
  obtain ⟨rfl,rfl⟩ := Prod.mk.inj (Option.some.inj (he.symm.trans he'))
  refine ⟨_,h,he,hfit.null_iff,fun hne => ?_⟩
  cases hc : chosen q s.heap with
  | none =>
    rw [hc] at hne
    exact (hne rfl).elim
  | some n =>
    have ha := hd.allocated hs.heap hc
    have hold : s.heap.blockUsage n ≠ .allocated := by simp [ha.route.target]
    rw [newlyAllocated_eq ha.pos ha.inside hold (ha.marked.allocated_iff ha.route)]
    rw [blockBytes,(hs.chosen_free hc).2.1,levelPages]

theorem RunOk.sizeHonoured_iff (hs : RunOk s) (hpos : 1 ≤ bytes)
    (hb : bytes ≤ pageSize*pageQuantity) :
    SizeHonoured s bytes ↔ pagesToAllocate bytes % 2 = 1 ∨ (∃ k, pagesToAllocate bytes = 2^k) ∨
      ¬ ∃ n, 0 < n ∧ depth n = pageLevels (pagesToAllocate bytes) ∧ s.FreeNode n := by
  obtain ⟨hq,hle,-⟩ := pagesToAllocate_bounds hpos hb
  obtain ⟨x,h,he,hnull,hsize⟩ := hs.allocatePages_node hq hle
  rw [← or_assoc,← le_levelPages_iff hq hle,← hnull,← bytes_le_iff hpos hb]
  unfold SizeHonoured
  rw [allocateMemory_of_pages (pagesToAllocateInt_eq hb),he]
  constructor
  · rintro ⟨x',h',he',hsz⟩
    obtain ⟨rfl,rfl⟩ := Prod.mk.inj (Option.some.inj he')
    by_cases hx : x = null
    · exact Or.inr hx
    · rw [← hsize hx]
      exact Or.inl (hsz hx).1
  · intro hcase
    refine ⟨x,h,rfl,fun hx => ?_⟩
    rw [hsize hx]
    refine ⟨hcase.resolve_right hx,?_⟩
    rw [← Nat.mul_assoc]
    exact Nat.mul_lt_mul_of_pos_right (levelPages_lt hq hle) (by decide)

/-- On every heap a request is honoured exactly if its page count is odd or a power of two,
or the level that is searched for it has no free node. -/
theorem requested_size (hr : performAll cs initialRun = some s) (hpos : 1 ≤ bytes)
    (hb : bytes ≤ pageSize*pageQuantity) :
    SizeHonoured s bytes ↔ pagesToAllocate bytes % 2 = 1 ∨ (∃ k, pagesToAllocate bytes = 2^k) ∨
      ¬ ∃ n, 0 < n ∧ depth n = pageLevels (pagesToAllocate bytes) ∧ s.FreeNode n :=
  (performAll_ok hr).sizeHonoured_iff hpos hb

theorem requested_size_history : ∃ s, performAll twoCalls initialRun = some s ∧
    s.live.map Block.address = [base+8*pageSize] ∧ SizeHonoured s 5000 := by
  obtain ⟨s,hr,hlive⟩ := Option.map_eq_some_iff.mp twoCalls_live
  have hb : 5000 ≤ pageSize*pageQuantity := by decide
  have hp : pagesToAllocate 5000 = 2^1 := by decide
  exact ⟨s,hr,hlive,(requested_size hr (by omega) hb).mpr (Or.inr (Or.inl ⟨1,hp⟩))⟩

/-- Six pages are given a block of four. -/
theorem requested_size_fails : ∃ cs s, performAll cs initialRun = some s ∧
    ¬ SizeHonoured s 24576 := by
  refine ⟨[],initialRun,rfl,?_⟩
  have hp : pagesToAllocate 24576 = 6 := by decide
  rw [initialRun_ok.sizeHonoured_iff (by omega) (by decide),hp]
  rintro (h | ⟨k,hk⟩ | hno)
  · omega
  · have hlo : 2 < k := (Nat.pow_lt_pow_iff_right (show 1 < 2 by omega)).mp (by omega)
    have hhi : k < 3 := (Nat.pow_lt_pow_iff_right (show 1 < 2 by omega)).mp (by omega)
    omega
  · refine hno ⟨512,by omega,depth_eq (by decide) (by decide),fun _ _ _ _ b hb => ?_,fun b hb => ?_⟩
    · exact (List.not_mem_nil hb).elim
    · exact (List.not_mem_nil hb).elim

end ComplexOS.BuddyAllocator
