import ComplexOS.Heap.Ownership

/-! # The search misses no free node

A node is free if no allocated node is on one path with it. The markers may say half used
where nothing is left, but never the other way round: everything above a free node is open
to the search, so the search below a node finds its first free node, and releases take out
the block of their address and no other.
-/
namespace ComplexOS.BuddyAllocator
open BinaryNodes

variable {u : ℕ → Usage} {levels i j n m : ℕ}

/-! ### Nodes without an allocated relative -/

def Unrelated (u : ℕ → Usage) (n : ℕ) : Prop :=
  ∀ k, 0 < k → k ≤ heapSize → u k = .allocated → ¬ Above k n ∧ ¬ Above n k

namespace TreeOk
variable (hu : TreeOk u)
include hu

theorem unused_of_unrelated (hn : 0 < n) (hle : n ≤ heapSize) (hf : Unrelated u n) :
    u n = .unused := by
  by_contra hx
  obtain ⟨k,hnk,hk,hal⟩ := hu.allocated_below hn hle hx
  exact (hf k (hn.trans_le hnk.le) hk hal).2 hnk

/-- The search is not turned back above a node without allocated relatives. -/
theorem open_of_unrelated (hj : 0 < j) (hle : n ≤ heapSize) (ha : Above j n)
    (hf : Unrelated u n) : ¬ (u j = .fullyUsed ∨ u j = .allocated) := by
  rintro (hx | hx)
  · rcases hu.full_below hj hle ha hx with hn | ⟨k,hjk,hkn,hal⟩
    · have hun := hu.unused_of_unrelated (hj.trans_le ha.le) hle hf
      rw [hn] at hun
      cases hun
    · exact (hf k (hj.trans_le hjk.le) (hkn.le.trans hle) hal).1 hkn
  · exact (hf j hj (ha.le.trans hle) hx).1 ha

end TreeOk

/-- The search finds a node that it is not turned back from, or one to the left of it. -/
theorem firstFree_complete (hs : n/2^levels = i) (ht : u n = .unused)
    (ho : ∀ m, m ≤ levels → ¬ (u (n/2^m) = .fullyUsed ∨ u (n/2^m) = .allocated)) :
    ∃ k, firstFree u levels i = some k ∧ k ≤ n := by
  induction levels generalizing i with
  | zero =>
    rw [pow_zero,Nat.div_one] at hs
    subst hs
    exact ⟨n,by rw [firstFree,if_pos ht],le_rfl⟩
  | succ levels ih =>
    have hopen := ho (levels+1) le_rfl
    rw [hs] at hopen
    rw [firstFree,if_neg hopen]
    rw [div_pow_succ] at hs
    obtain ⟨k,hk,hle⟩ := ih rfl (fun m hm => ho m (Nat.le_succ_of_le hm))
    rcases eq_left_or_right (n/2^levels) with hc | hc <;> rw [hs] at hc
    · rw [hc] at hk
      exact ⟨k,by rw [hk,Option.some_or],hle⟩
    · rw [hc] at hk
      cases hl : firstFree u levels (left i) with
      | none => exact ⟨k,by rw [hk,Option.none_or],hle⟩
      | some p =>
        -- what is below the left child comes before all that is below the right one
        refine ⟨p,Option.some_or,?_⟩
        have hp := (firstFree_route hl).start
        have hlt : p/2^levels < n/2^levels := by
          rw [hp,hc]
          simp only [left,right]
          omega
        exact (Nat.lt_of_div_lt_div hlt).le

/-- What the search from the root finds has no allocated relatives. -/
theorem Route.unrelated (hu : TreeOk u) (hr : Route u levels 1 n) (hle : n ≤ heapSize) :
    Unrelated u n := by
  have hn : 0 < n := Nat.pos_of_ne_zero (by
    rintro rfl
    simpa using hr.start)
  rintro k hk hkle hal
  constructor
  · rintro ⟨m,rfl⟩
    rcases Nat.lt_or_ge levels m with hlt | hge
    · have hpow : 2^(levels+1) ≤ 2^m := Nat.pow_le_pow_right (by omega) hlt
      have hz : n/2^m ≤ n/2^(levels+1) := Nat.div_le_div_left hpow (by positivity)
      rw [div_pow_succ,hr.start] at hz
      omega
    · rcases Nat.eq_zero_or_pos m with rfl | hm
      · rw [pow_zero,Nat.div_one,hr.target] at hal
        cases hal
      · rcases hr.inner m hm hge with hx | hx <;> rw [hal] at hx <;> cases hx
  · intro ha
    by_cases he : n = k
    · rw [← he,hr.target] at hal
      cases hal
    · have hun := hu.unused_below hn hkle ha he (Or.inl hr.target)
      rw [hal] at hun
      cases hun

/-! ### One level of the tree -/

/-- The nodes of a level are those from which the root is so many steps away. -/
theorem depth_eq_iff {d : ℕ} (hn : 0 < n) : depth n = d ↔ n/2^d = 1 := by
  constructor
  · rintro rfl
    have hlo := pow_depth_le hn
    have hhi := lt_pow_depth n
    rw [pow_succ] at hhi
    exact Nat.div_eq_of_lt_le (by omega) (by omega)
  · intro h
    have hd := depth_div_pow (i := n) (m := d) (by omega)
    rw [h] at hd
    simpa [depth] using hd.symm

theorem level_inside (hd : depth n ≤ 11) : n ≤ heapSize := by
  have hhi := lt_pow_depth n
  have hpow := Nat.pow_le_pow_right (show 0 < 2 by omega) (Nat.succ_le_succ hd)
  simp only [heapSize_eq]
  omega

/-- On one level the addresses come in the order of the nodes. -/
theorem nodeBase_mono (hd : depth n = depth m) (hle : n ≤ m) : nodeBase n ≤ nodeBase m := by
  simp only [nodeBase,blockBytes,hd]
  exact Nat.add_le_add_left (Nat.mul_le_mul_right _ (Nat.sub_le_sub_right hle _)) _

/-! ### Runs -/

/-- No page below the node belongs to a live block and no ancestor is a live block. -/
def RunState.FreeNode (s : RunState) (n : ℕ) : Prop :=
  (∀ l, pageQuantity ≤ l → l ≤ heapSize → Above n l → ∀ b ∈ s.live, ¬ Above b.node l) ∧
    ∀ b ∈ s.live, ¬ Above b.node n

variable {s : RunState} {q a : ℕ}

theorem RunOk.freeNode_iff (hs : RunOk s) : s.FreeNode n ↔ Unrelated s.heap.blockUsage n := by
  constructor
  · rintro ⟨hpages,hup⟩ k hk hle hal
    obtain ⟨b,hb,rfl⟩ := hs.complete k hk hle hal
    refine ⟨hup b hb,fun hnb => ?_⟩
    obtain ⟨harena,hleaf⟩ := base_mem_block hk hle
    obtain ⟨hlo,hhi⟩ := leafOf_bounds harena
    exact hpages _ hlo hhi (hnb.trans hleaf) b hb hleaf
  · intro hf
    have hrel : ∀ b ∈ s.live, ¬ Above b.node n ∧ ¬ Above n b.node := by
      intro b hb
      obtain ⟨h1,h2,h3,-⟩ := hs.live b hb
      exact hf _ h1 h2 h3
    refine ⟨fun l _ _ hnl b hb hbl => ?_,fun b hb => (hrel b hb).1⟩
    exact (hbl.linear hnl).elim (hrel b hb).1 (hrel b hb).2

/-- A free node of the level makes the search find one, and none further right. -/
theorem RunOk.chosen_le (hs : RunOk s) (hn : 0 < n) (hd : depth n = pageLevels q)
    (hf : s.FreeNode n) : ∃ k, chosen q s.heap = some k ∧ k ≤ n := by
  have hle := level_inside (hd.trans_le (pageLevels_le q))
  have hrel := hs.freeNode_iff.mp hf
  have hroot := (depth_eq_iff hn).mp hd
  refine firstFree_complete hroot (hs.heap.tree.unused_of_unrelated hn hle hrel) (fun m hm => ?_)
  have hpos : n/2^pageLevels q ≤ n/2^m :=
    Nat.div_le_div_left (Nat.pow_le_pow_right (by omega) hm) (by positivity)
  exact hs.heap.tree.open_of_unrelated (by omega) hle ⟨m,rfl⟩ hrel

theorem RunOk.chosen_free (hs : RunOk s) (hc : chosen q s.heap = some n) :
    0 < n ∧ depth n = pageLevels q ∧ s.FreeNode n := by
  have hr := firstFree_route hc
  have hle := (fits_root (pageLevels_le q)).node hr.start
  have hn : 0 < n := Nat.pos_of_ne_zero (by
    rintro rfl
    simpa using hr.start)
  exact ⟨hn,(depth_eq_iff hn).mpr hr.start,hs.freeNode_iff.mpr (hr.unrelated hs.heap.tree hle)⟩

/-- The answer to a request of `q` pages is the free node of lowest address of the level, and
the only markers that change are on its way to the root. -/
structure FirstFit (s : RunState) (q a : ℕ) (h : Heap) : Prop where
  null_iff : a = null ↔ ¬ ∃ n, 0 < n ∧ depth n = pageLevels q ∧ s.FreeNode n
  refused : a = null → h.blockUsage = s.heap.blockUsage
  taken : a ≠ null → ∃ n, 0 < n ∧ depth n = pageLevels q ∧ s.FreeNode n ∧ a = nodeBase n ∧
    (∀ m, 0 < m → depth m = pageLevels q → s.FreeNode m → nodeBase n ≤ nodeBase m) ∧
    h.blockUsage n = .allocated ∧ ∀ j, ¬ Above j n → h.blockUsage j = s.heap.blockUsage j

theorem RunOk.firstFit (hs : RunOk s) (hq : 1 ≤ q) (hle : q ≤ pageQuantity) :
    ∃ a h, allocatePages q s.heap = some (a,h) ∧ FirstFit s q a h := by
  obtain ⟨h,he,hd,-⟩ := allocatePages_spec hs.heap hq hle
  refine ⟨_,h,he,?_⟩
  cases hc : chosen q s.heap with
  | none =>
    rw [hc] at hd
    refine ⟨iff_of_true rfl ?_,fun _ => hd.usage,fun hne => (hne rfl).elim⟩
    rintro ⟨n,hn,hdep,hf⟩
    obtain ⟨k,hk,-⟩ := hs.chosen_le hn hdep hf
    rw [hc] at hk
    cases hk
  | some n =>
    obtain ⟨hn,hdep,hf⟩ := hs.chosen_free hc
    have ha := hd.allocated hs.heap hc
    have hne : searchAddress (some n) ≠ null := nodeBase_ne_null n
    refine ⟨iff_of_false hne (fun hno => hno ⟨n,hn,hdep,hf⟩),fun h0 => (hne h0).elim,fun _ => ?_⟩
    refine ⟨n,hn,hdep,hf,rfl,fun m hm hmd hmf => ?_,ha.marked.target,fun j hj => ?_⟩
    · obtain ⟨k,hk,hkm⟩ := hs.chosen_le hm hmd hmf
      obtain rfl := Option.some.inj (hc.symm.trans hk)
      exact nodeBase_mono (hdep.trans hmd.symm) hkm
    · exact ha.marked.other j (fun m _ hm => hj ⟨m,hm⟩)

/-- An allocation is refused exactly if its level has no free node, and otherwise takes the
one of lowest address. -/
theorem first_fit (rs : List Request) (hrs : ∀ r ∈ rs, r.Valid) (hq : 1 ≤ q)
    (hle : q ≤ pageQuantity) :
    ∃ s, serveAll rs initialRun = some s ∧
      getPages q s.heap = getPagesRecursive treeLevels 1 (pageLevels q) s.heap ∧
      ∃ a h, allocatePages q s.heap = some (a,h) ∧ FirstFit s q a h := by
  obtain ⟨s,hrun,hs⟩ := serveAll_ok initialRun_ok hrs
  exact ⟨s,hrun,getPages_eq hq hle _,hs.firstFit hq hle⟩

theorem first_fit_plain :
    (∀ r ∈ [Request.allocatePages 3], r.Valid) ∧ 1 ≤ 2048 ∧ 2048 ≤ pageQuantity ∧
      ∃ s, serveAll [.allocatePages 3] initialRun = some s ∧
        ∃ a h, allocatePages 2048 s.heap = some (a,h) ∧ FirstFit s 2048 a h := by
  have hv : ∀ r ∈ [Request.allocatePages 3], r.Valid := by
    simp [Request.Valid,pageQuantity]
  have hle : 2048 ≤ pageQuantity := le_rfl
  obtain ⟨s,hs,-,a,h,he,hfit⟩ := first_fit [.allocatePages 3] hv (by omega) hle
  exact ⟨hv,by omega,hle,s,hs,a,h,he,hfit⟩

/-- A release is answered with `1` exactly at the address of a live block, and takes out
that block alone. -/
theorem exact_free (rs : List Request) (hrs : ∀ r ∈ rs, r.Valid) (ha : InArena a) :
    ∃ s, serveAll rs initialRun = some s ∧ ∃ freed h, freeMemory a s.heap = some (freed,h) ∧
      (freed = true ↔ ∃ b ∈ s.live, b.address = a) ∧
      (∀ b ∈ s.live, b.address = a →
        serve s (.freeMemory a) = some ⟨h,s.live.erase b⟩ ∧
        ∀ i, 0 < i → i ≤ heapSize →
          (h.blockUsage i = .allocated ↔ ∃ c ∈ s.live, c ≠ b ∧ c.node = i)) ∧
      (freed = false → h.blockUsage = s.heap.blockUsage) := by
  obtain ⟨s,hrun,hs⟩ := serveAll_ok initialRun_ok hrs
  refine ⟨s,hrun,?_⟩
  by_cases hx : ∃ b ∈ s.live, b.address = a
  · obtain ⟨b,hb,rfl⟩ := hx
    obtain ⟨h,hf,hok⟩ := hs.free_live hb
    refine ⟨true,h,hf,iff_of_true rfl ⟨b,hb,rfl⟩,fun c hc hca => ?_,fun h0 => by cases h0⟩
    obtain rfl := hs.address_inj hc hb hca
    have hkeep : ∀ d ∈ s.live, decide (d.address ≠ c.address) = true ↔ d ≠ c := by
      intro d hd
      rw [decide_eq_true_iff]
      exact not_congr ⟨fun he => hs.address_inj hd hb he,fun he => he ▸ rfl⟩
    have hlive : s.live.filter (·.address ≠ c.address) = s.live.erase c := by
      rw [hs.live_nodup.erase_eq_filter]
      refine List.filter_congr (fun d hd => ?_)
      rw [Bool.eq_iff_iff,hkeep d hd,bne_iff_ne]
    refine ⟨?_,fun i hi hle => ⟨fun hal => ?_,?_⟩⟩
    · rw [serve_freeMemory hf,if_pos rfl,hlive]
    · obtain ⟨d,hd,hdi⟩ := hok.complete i hi hle hal
      obtain ⟨hd,hne⟩ := List.mem_filter.mp hd
      exact ⟨d,hd,(hkeep d hd).mp hne,hdi⟩
    · rintro ⟨d,hd,hne,rfl⟩
      exact (hok.live d (List.mem_filter.mpr ⟨hd,(hkeep d hd).mpr hne⟩)).2.2.1
  · have hno : ∀ b ∈ s.live, b.address ≠ a := fun b hb hba => hx ⟨b,hb,hba⟩
    have hf := freeMemory_unallocated (hs.isAllocatedPage_free ha hno)
    exact ⟨false,s.heap,hf,iff_of_false Bool.false_ne_true hx,fun b hb hba => (hno b hb hba).elim,
      fun _ => rfl⟩

theorem exact_free_interior :
    (∀ r ∈ [Request.allocatePages 3], r.Valid) ∧ InArena (base+5) ∧
      ∃ s, serveAll [.allocatePages 3] initialRun = some s ∧
        ∃ freed h, freeMemory (base+5) s.heap = some (freed,h) ∧
          (freed = true ↔ ∃ b ∈ s.live, b.address = base+5) := by
  have hv : ∀ r ∈ [Request.allocatePages 3], r.Valid := by
    simp [Request.Valid,pageQuantity]
  have ha : InArena (base+5) := by simp [InArena,base,pageSize,pageQuantity]
  obtain ⟨s,hs,freed,h,hf,hiff,-⟩ := exact_free [.allocatePages 3] hv ha
  exact ⟨hv,ha,s,hs,freed,h,hf,hiff⟩

end ComplexOS.BuddyAllocator
