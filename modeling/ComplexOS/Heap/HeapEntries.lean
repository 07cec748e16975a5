import ComplexOS.Heap.FirstFit
import ComplexOS.Ipc.ChannelCalls

/-! # Sizes and addresses of user programs

A size becomes a page count of type `int`, an address an index of that type. Converting to
`int` keeps the low half of the word; an `int` sum out of range is undefined and answers
`none`, as an access outside the arrays does. A negative page count sends the search below
the leaves, past which the arrays end.
-/
namespace ComplexOS.BuddyAllocator
open BinaryNodes

/-- `pagesToAllocate` with the types of the source. -/
def pagesToAllocateInt (bytes : ℕ) : Option ℤ :=
  let pages := toInt (bytes/pageSize)
  if bytes % pageSize = 0 then some pages
  else if pages + 1 < 2^31 then some (pages+1) else none

def Heap.allocateMemory (h : Heap) (bytes : ℕ) : Option (ℕ × Heap) := do
  allocatePages (← pagesToAllocateInt bytes) h

inductive HeapCall
  | allocateMemory (bytes : ℕ)
  | freeMemory (memoryBase : ℕ)

def HeapCall.perform (s : RunState) : HeapCall → Option RunState
  | .allocateMemory bytes => do
    let (a,h) ← s.heap.allocateMemory bytes
    if a = null then pure { s with heap := h }
    else pure { heap := h, live := ⟨a,newlyAllocated s.heap h⟩ :: s.live }
  | .freeMemory memoryBase => serve s (.freeMemory memoryBase)

variable {u : ℕ → Usage} {h : Heap} {s s' : RunState} {d i a bytes : ℕ} {z p : ℤ}

/-! ### A search that never comes to its level -/

/-- Every leaf `d` levels below node `i` is in an allocated block. -/
def Covered (u : ℕ → Usage) (d i : ℕ) : Prop :=
  ∀ l, l/2^d = i → ∃ k, 0 < k ∧ Above k l ∧ u k = .allocated

theorem Covered.of_above (hi : 0 < i) (ha : u i = .allocated) : Covered u d i :=
  fun _ hl => ⟨i,hi,⟨d,hl⟩,ha⟩

theorem covered_succ : Covered u (d+1) i ↔ Covered u d (left i) ∧ Covered u d (right i) := by
  constructor
  · intro hc
    constructor <;>
      · intro l hl
        refine hc l ?_
        rw [div_pow_succ,hl]
        simp only [left,right]
        omega
  · rintro ⟨hl,hr⟩ l he
    rw [div_pow_succ] at he
    rcases eq_left_or_right (l/2^d) with hx | hx <;> rw [he] at hx
    · exact hl l hx
    · exact hr l hx

theorem Covered.of_full (hu : TreeOk u) (hi : 0 < i) (hlo : pageQuantity ≤ i*2^d) (hfit : Fits d i)
    (hf : u i = .fullyUsed) : Covered u d i := by
  intro l hl
  have hle := hfit.node hl
  have hleaf : pageQuantity ≤ l := by
    have := Nat.div_mul_le_self l (2^d)
    rw [hl] at this
    omega
  rcases hu.full_below hi hle ⟨d,hl⟩ hf with hx | ⟨k,hik,hkl,hal⟩
  · rcases hu.leaf l hleaf hle with hy | hy <;> rw [hx] at hy <;> cases hy
  · exact ⟨k,hi.trans_le hik.le,hkl,hal⟩

structure Searched (h h' : Heap) : Prop where
  usage : h'.blockUsage = h.blockUsage
  bases : BasesOk h'
  grow : BasesGrow h h'

theorem Searched.trans {h' h'' : Heap} (a : Searched h h') (b : Searched h' h'') : Searched h h'' :=
  ⟨b.usage.trans a.usage,b.bases,a.grow.trans b.grow⟩

theorem setMemoryBlockDivisionBases_leaf (hi : pageQuantity ≤ i) :
    setMemoryBlockDivisionBases i h = none := by
  have hout : ¬ InArray (left i) := by
    simp only [InArray,left,heapSize_eq,pageQuantity_eq] at *
    omega
  unfold setMemoryBlockDivisionBases Heap.baseAt
  rw [if_neg hout]
  rfl

theorem getPagesRecursive_turned (hi : 0 < i) (hle : i ≤ heapSize)
    (hf : h.blockUsage i = .fullyUsed ∨ h.blockUsage i = .allocated) :
    getPagesRecursive (d+1) i z h = some (null,h) := by
  simp only [getPagesRecursive,h.usageAt_eq hi hle,Option.bind_eq_bind,Option.bind_some]
  rw [if_pos hf]
  rfl

theorem getPagesRecursive_descend (hi : 0 < i) (hle : i ≤ heapSize)
    (hf : ¬ (h.blockUsage i = .fullyUsed ∨ h.blockUsage i = .allocated)) (hz : z < 0) :
    getPagesRecursive (d+1) i z h = (setMemoryBlockDivisionBases i h).bind (fun h =>
      (getPagesRecursive d (left i) (z-1) h).bind (fun x =>
        if x.1 ≠ null then some (x.1,x.2.setUsage i .halfUsed)
        else (getPagesRecursive d (right i) (z-1) x.2).bind (fun y =>
          if y.1 ≠ null ∧ y.2.blockUsage (right i) ≠ .halfUsed ∧
              y.2.blockUsage (left i) ≠ .halfUsed then
            some (y.1,y.2.setUsage i .fullyUsed)
          else some (y.1,y.2)))) := by
  simp only [getPagesRecursive,h.usageAt_eq hi hle,Option.bind_eq_bind,Option.bind_some]
  rw [if_neg hf,if_neg (by omega)]
  rfl

/-- Below the level counter's zero the search comes back only where no leaf is left. -/
theorem getPagesRecursive_below (hu : TreeOk h.blockUsage) (hi : 0 < i)
    (hlo : pageQuantity ≤ i*2^d) (hfit : Fits d i) (hz : z < 0) (hb : BasesOk h)
    (hn : h.memoryBase i ≠ null)
    (ho : ∀ k, 0 < k → Above k i → k ≠ i → h.blockUsage k ≠ .allocated) :
    (Covered h.blockUsage d i →
      ∃ h', getPagesRecursive (d+1) i z h = some (null,h') ∧ Searched h h') ∧
    (¬ Covered h.blockUsage d i → getPagesRecursive (d+1) i z h = none) := by
  induction d generalizing i z h with
  | zero =>
    have hle : i ≤ heapSize := hfit.node (by simp)
    have hleaf : pageQuantity ≤ i := by simpa using hlo
    rcases hu.leaf i hleaf hle with hx | hx
    · -- a leaf that is not used has no allocated node above it either
      have hnot : ¬ Covered h.blockUsage 0 i := by
        intro hc
        obtain ⟨k,hk,hki,hal⟩ := hc i (by simp)
        by_cases he : k = i
        · rw [he,hx] at hal
          cases hal
        · exact ho k hk hki he hal
      refine ⟨fun hc => (hnot hc).elim,fun _ => ?_⟩
      rw [getPagesRecursive_descend hi hle (by simp [hx]) hz,
        setMemoryBlockDivisionBases_leaf hleaf]
      rfl
    · exact ⟨fun _ => ⟨h,getPagesRecursive_turned hi hle (Or.inr hx),rfl,hb,BasesGrow.refl h⟩,
        fun hc => (hc (Covered.of_above hi hx)).elim⟩
  | succ d ih =>
    have hin := hfit.inner
    have hle : i ≤ heapSize := by
      simp only [heapSize_eq,pageQuantity_eq] at *
      omega
    by_cases hf : h.blockUsage i = .fullyUsed ∨ h.blockUsage i = .allocated
    · have hc : Covered h.blockUsage (d+1) i :=
        hf.elim (Covered.of_full hu hi hlo hfit) (Covered.of_above hi)
      exact ⟨fun _ => ⟨h,getPagesRecursive_turned hi hle hf,rfl,hb,BasesGrow.refl h⟩,
        fun hno => (hno hc).elim⟩
    · obtain ⟨h₁,he₁,hu₁,hb₁,hg₁,hl₁,hr₁⟩ := setMemoryBlockDivisionBases_spec hb hi hin hn
      have hs₁ : Searched h h₁ := ⟨hu₁,hb₁,hg₁⟩
      have hup : ∀ c, c/2 = i → ∀ k, 0 < k → Above k c → k ≠ c → h.blockUsage k ≠ .allocated := by
        intro c hc k hk hkc hne hal
        have hki := (above_iff.mp hkc).resolve_left hne
        rw [hc] at hki
        by_cases he : k = i
        · exact hf (Or.inr (he ▸ hal))
        · exact ho k hk hki he hal
      have hleft : 0 < left i := by simp only [left]; omega
      have hright : 0 < right i := by simp only [right]; omega
      have hlow : pageQuantity ≤ left i*2^d := by
        rw [pow_succ] at hlo
        simp only [left]
        nlinarith
      have hlow' : pageQuantity ≤ right i*2^d := by
        simp only [left,right] at *
        nlinarith [Nat.zero_le (2^d)]
      rw [getPagesRecursive_descend hi hle hf hz,he₁,Option.bind_some,covered_succ]
      obtain ⟨hyes,hno⟩ := ih (h := h₁) (hu₁ ▸ hu) hleft hlow hfit.left (by omega : z-1 < 0) hb₁ hl₁
        (hu₁ ▸ hup _ (by simp only [left]; omega))
      rw [hu₁] at hyes hno
      by_cases hcl : Covered h.blockUsage d (left i)
      · obtain ⟨h₂,he₂,hs₂⟩ := hyes hcl
        have hu₂ : h₂.blockUsage = h.blockUsage := hs₂.usage.trans hu₁
        obtain ⟨hyes',hno'⟩ := ih (h := h₂) (hu₂ ▸ hu) hright hlow' hfit.right
          (by omega : z-1 < 0) hs₂.bases (by rw [hs₂.grow _ hr₁]; exact hr₁)
          (hu₂ ▸ hup _ (by simp only [right]; omega))
        rw [hu₂] at hyes' hno'
        rw [he₂,Option.bind_some,if_neg (by simp)]
        refine ⟨fun hc => ?_,fun hc => ?_⟩
        · obtain ⟨h₃,he₃,hs₃⟩ := hyes' hc.2
          exact ⟨h₃,by rw [he₃]; simp,(hs₁.trans hs₂).trans hs₃⟩
        · rw [hno' (fun hr => hc ⟨hcl,hr⟩)]
          rfl
      · refine ⟨fun hc => (hcl hc.1).elim,fun _ => ?_⟩
        rw [hno hcl]
        rfl

/-! ### Page counts -/

theorem toInt_bounds (x : ℕ) : -2^31 ≤ toInt x ∧ toInt x < 2^31 := by
  have hlo : -((2^32 : ℕ)/2 : ℤ) ≤ toInt x := Int.le_bmod (Nat.two_pow_pos 32)
  have hhi : toInt x < ((2^32 : ℕ) + 1)/2 := Int.bmod_lt (Nat.two_pow_pos 32)
  exact ⟨hlo,hhi⟩

theorem pagesToAllocateInt_bounds (hp : pagesToAllocateInt bytes = some p) :
    -2^31 ≤ p ∧ p < 2^31 := by
  have hb := toInt_bounds (bytes/pageSize)
  simp only [pagesToAllocateInt] at hp
  split at hp
  · obtain rfl := Option.some.inj hp
    exact hb
  · split at hp
    · obtain rfl := Option.some.inj hp
      omega
    · cases hp

/-- Up to the size of the arena the types make no difference. -/
theorem pagesToAllocateInt_eq (hb : bytes ≤ pageSize*pageQuantity) :
    pagesToAllocateInt bytes = some (pagesToAllocate bytes : ℤ) := by
  have hq : bytes/pageSize ≤ 2048 := by
    simp only [pageSize,pageQuantity_eq] at *
    omega
  have ht := toInt_eq (x := bytes/pageSize) (by rw [heapSize_eq]; omega)
  unfold pagesToAllocateInt pagesToAllocate
  simp only [ht]
  by_cases hz : bytes % pageSize = 0
  · rw [if_pos hz,if_pos hz]
  · rw [if_neg hz,if_neg hz,if_pos (by omega),Nat.cast_succ]

/-- The page count is the quotient rounded up. -/
theorem pagesToAllocate_bounds (hpos : 1 ≤ bytes) (hb : bytes ≤ pageSize*pageQuantity) :
    1 ≤ pagesToAllocate bytes ∧ pagesToAllocate bytes ≤ pageQuantity ∧
      bytes ≤ pagesToAllocate bytes*pageSize ∧ (pagesToAllocate bytes-1)*pageSize < bytes := by
  unfold pagesToAllocate
  by_cases hz : bytes % pageSize = 0
  · rw [if_pos hz]
    simp only [pageSize,pageQuantity_eq] at *
    omega
  · rw [if_neg hz]
    simp only [pageSize,pageQuantity_eq] at *
    omega

/-- A negative `int` handed to `log2` is a word of 64 digits. -/
theorem getPages_negative (hp : p < 0) (hlo : -2^31 ≤ p) (h : Heap) :
    ∃ z < 0, getPages p h = getPagesRecursive treeLevels 1 z h := by
  have hw : (p % 2^64).toNat < 2^64 ∧ 2^63 ≤ (p % 2^64).toNat := by omega
  unfold getPages
  rw [if_neg (by omega)]
  generalize (p % 2^64).toNat = w at hw
  have hlog : 63 ≤ Nat.log 2 w := Nat.le_log_of_pow_le (by omega) hw.2
  refine ⟨maxLevels - log2 w,?_,rfl⟩
  rw [log2_eq hw.1,maxLevels_eq]
  omega

def RunState.Full (s : RunState) : Prop :=
  ∀ l, pageQuantity ≤ l → l ≤ heapSize → ∃ b ∈ s.live, Above b.node l

theorem RunOk.full_iff (hs : RunOk s) : s.Full ↔ Covered s.heap.blockUsage 11 1 := by
  have hrange : ∀ l, l/2^11 = 1 ↔ pageQuantity ≤ l ∧ l ≤ heapSize := by
    intro l
    simp only [heapSize_eq,pageQuantity_eq]
    omega
  constructor
  · intro hf l hl
    obtain ⟨hlo,hhi⟩ := (hrange l).mp hl
    obtain ⟨b,hb,hbl⟩ := hf l hlo hhi
    obtain ⟨h1,-,h3,-⟩ := hs.live b hb
    exact ⟨b.node,h1,hbl,h3⟩
  · intro hc l hlo hhi
    obtain ⟨k,hk,hkl,hal⟩ := hc l ((hrange l).mpr ⟨hlo,hhi⟩)
    obtain ⟨b,hb,rfl⟩ := hs.complete k hk (hkl.le.trans hhi) hal
    exact ⟨b,hb,hkl⟩

/-- A negative page count comes back with `NULL` where no page is left, and nowhere else. -/
theorem RunOk.allocatePages_negative (hs : RunOk s) (hp : p < 0) (hlo : -2^31 ≤ p) :
    (s.Full → ∃ h', allocatePages p s.heap = some (null,h') ∧ Searched s.heap h') ∧
      (¬ s.Full → allocatePages p s.heap = none) := by
  obtain ⟨z,hz,he⟩ := getPages_negative hp hlo s.heap
  have hpages : allocatePages p s.heap = getPagesRecursive (11+1) 1 z s.heap := by
    rw [allocatePages,if_neg (by omega),he]
    rfl
  rw [hs.full_iff,hpages]
  refine getPagesRecursive_below hs.heap.tree Nat.one_pos (by decide) (fits_root le_rfl) hz
    hs.heap.bases hs.heap.root (fun k hk hka hne => ?_)
  exact (hne (le_antisymm hka.le hk)).elim

theorem Searched.runOk (hs : RunOk s) (hd : Searched s.heap h) : RunOk { s with heap := h } := by
  have hknown : ∀ i, s.heap.memoryBase i ≠ null → h.memoryBase i ≠ null := by
    intro i hi
    rw [hd.grow i hi]
    exact hi
  refine ⟨⟨?_,hd.bases,hknown 1 hs.heap.root,?_⟩,hs.nodup,?_,?_⟩
  · rw [hd.usage]
    exact hs.heap.tree
  · intro i hi hle hal
    rw [hd.usage] at hal
    exact hknown i (hs.heap.known i hi hle hal)
  · simpa only [hd.usage] using hs.live
  · simpa only [hd.usage] using hs.complete

/-! ### Runs of user calls -/

theorem allocateMemory_of_pages (he : pagesToAllocateInt bytes = some p) (h : Heap) :
    h.allocateMemory bytes = allocatePages p h := by
  unfold Heap.allocateMemory
  rw [he]
  rfl

theorem allocateMemory_undefined (he : pagesToAllocateInt bytes = none) (h : Heap) :
    h.allocateMemory bytes = none := by
  unfold Heap.allocateMemory
  rw [he]
  rfl

theorem HeapCall.perform_natural {q : ℕ} (he : pagesToAllocateInt bytes = some (q : ℤ)) :
    perform s (.allocateMemory bytes) = serve s (.allocatePages q) := by
  unfold perform serve
  simp only [allocateMemory_of_pages he]

/-- A call of any size or address that comes back keeps the invariant. -/
theorem HeapCall.perform_ok (hs : RunOk s) {c : HeapCall} (hc : perform s c = some s') :
    RunOk s' := by
  cases c with
  | freeMemory a => exact (hs.serve_free hc).1
  | allocateMemory bytes =>
    cases he : pagesToAllocateInt bytes with
    | none => simp [perform,allocateMemory_undefined he] at hc
    | some p =>
      rcases lt_or_ge p 0 with hp | hp
      · obtain ⟨hyes,hno⟩ := hs.allocatePages_negative hp (pagesToAllocateInt_bounds he).1
        by_cases hf : s.Full
        · obtain ⟨h',hh,hd⟩ := hyes hf
          have hs' : s' = { s with heap := h' } := by
            simpa [perform,allocateMemory_of_pages he,hh,eq_comm] using hc
          rw [hs']
          exact Searched.runOk hs hd
        · simp [perform,allocateMemory_of_pages he,hno hf] at hc
      · obtain ⟨q,rfl⟩ := Int.eq_ofNat_of_zero_le hp
        rw [perform_natural he] at hc
        obtain ⟨a,h',-,hok⟩ := allocatePages_total hs q
        exact hok s' hc

def performAll (cs : List HeapCall) (s : RunState) : Option RunState :=
  Runs.run HeapCall.perform s cs

theorem performAll_ok {cs : List HeapCall} (hr : performAll cs initialRun = some s) : RunOk s :=
  Runs.invariant (fun _ _ _ hs hc => HeapCall.perform_ok hs hc) initialRun_ok hr

def twoCalls : List HeapCall := [.allocateMemory 12288,.allocateMemory 20480,.freeMemory base]

theorem twoCalls_live : (performAll twoCalls initialRun).map (fun s => s.live.map Block.address) =
    some [base+8*pageSize] := by decide +kernel

end ComplexOS.BuddyAllocator
