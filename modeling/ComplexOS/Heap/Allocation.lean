import ComplexOS.Heap.Marking
import Mathlib.Tactic.IntervalCases

/-! # Allocation performs the first-fit search and marks its path

Base addresses are filled in lazily during the descent. Every cached base is the
node's true one, so the address handed out is the base of the chosen node, and
the markers become the marked root path. No access leaves the arrays.
-/
namespace ComplexOS.BuddyAllocator
open BinaryNodes

/-- Bytes of the block of a node: `2048 >> depth` pages. -/
def blockBytes (i : ℕ) : ℕ := pageQuantity / 2^(depth i) * pageSize

/-- The true base of a node: its position on its level times the block size. -/
def nodeBase (i : ℕ) : ℕ := base + (i - 2^(depth i)) * blockBytes i

theorem depth_le_of_lt {i d : ℕ} (hi : 0 < i) (h : i < 2^(d+1)) : depth i ≤ d := by
  have := pow_depth_le hi
  have hlt : 2^(depth i) < 2^(d+1) := lt_of_le_of_lt this h
  have := (Nat.pow_lt_pow_iff_right (by omega : 1 < 2)).mp hlt
  omega

theorem depth_le_inner {i : ℕ} (hi : 0 < i) (hb : i < pageQuantity) : depth i ≤ 10 :=
  depth_le_of_lt hi (by simpa [pageQuantity_eq] using hb)

theorem depth_le_last {i : ℕ} (hi : 0 < i) (hb : i ≤ heapSize) : depth i ≤ 11 :=
  depth_le_of_lt hi (by simp only [heapSize_eq] at hb; omega)

theorem blockBytes_halve {d : ℕ} (hd : d ≤ 10) :
    pageQuantity / 2^d * pageSize = 2*(pageQuantity / 2^(d+1) * pageSize) := by
  interval_cases d <;> rfl

theorem nodeBase_left {i : ℕ} (hi : 0 < i) (hb : i < pageQuantity) :
    nodeBase (left i) = nodeBase i := by
  have hd := blockBytes_halve (depth_le_inner hi hb)
  have hle := pow_depth_le hi
  have hsub : 2*i - 2^(depth i+1) = 2*(i - 2^(depth i)) := by rw [pow_succ]; omega
  rw [nodeBase,nodeBase,blockBytes,blockBytes,left,depth_double hi,hd,hsub]
  ring

theorem nodeBase_right {i : ℕ} (hi : 0 < i) (hb : i < pageQuantity) :
    nodeBase (right i) = blockBytes (right i) + nodeBase i := by
  have hd := blockBytes_halve (depth_le_inner hi hb)
  have hle := pow_depth_le hi
  have hsub : 2*i+1 - 2^(depth i+1) = 2*(i - 2^(depth i)) + 1 := by rw [pow_succ]; omega
  rw [nodeBase,nodeBase,blockBytes,blockBytes,right,depth_double_add_one hi,hd,hsub]
  ring

theorem nodeBase_ne_null (i : ℕ) : nodeBase i ≠ null := by
  simp [nodeBase,base,null]

/-- The parity correction turns the odd-rounding `log2` into the depth of the children. -/
theorem divisions_eq {i : ℕ} (hi : 0 < i) (hb : i < pageQuantity) :
    (pageSize*pageQuantity) / 2^(log2 i + 1 - (if i % 2 ≠ 0 then 1 else 0)) =
      blockBytes (right i) := by
  have hlog : log2 i + 1 - (if i % 2 ≠ 0 then 1 else 0) = depth i + 1 := by
    rw [log2_eq (by simp only [pageQuantity_eq] at hb; omega)]
    rcases Nat.mod_two_eq_zero_or_one i with h | h <;> simp [h,depth]
  have hd := depth_le_inner hi hb
  rw [hlog,blockBytes,right,depth_double_add_one hi]
  generalize depth i = d at hd
  interval_cases d <;> rfl

def BasesOk (h : Heap) : Prop :=
  ∀ i, 0 < i → i ≤ heapSize → h.memoryBase i = null ∨ h.memoryBase i = nodeBase i

def BasesGrow (h h' : Heap) : Prop := ∀ i, h.memoryBase i ≠ null → h'.memoryBase i = h.memoryBase i

theorem BasesGrow.refl (h : Heap) : BasesGrow h h := fun _ _ => rfl

theorem BasesGrow.trans {h h' h'' : Heap} (a : BasesGrow h h') (b : BasesGrow h' h'') :
    BasesGrow h h'' := fun i hi => (b i (by rw [a i hi]; exact hi)).trans (a i hi)

theorem BasesOk.eq_nodeBase {h : Heap} (hb : BasesOk h) {i : ℕ} (hi : 0 < i) (hle : i ≤ heapSize)
    (hn : h.memoryBase i ≠ null) : h.memoryBase i = nodeBase i :=
  (hb i hi hle).resolve_left hn

@[simp] theorem setUsage_memoryBase (h : Heap) (i : ℕ) (x : Usage) :
    (h.setUsage i x).memoryBase = h.memoryBase := rfl
@[simp] theorem setUsage_blockUsage (h : Heap) (i : ℕ) (x : Usage) :
    (h.setUsage i x).blockUsage = Function.update h.blockUsage i x := rfl
@[simp] theorem setBase_blockUsage (h : Heap) (i : ℕ) (a : ℕ) :
    (h.setBase i a).blockUsage = h.blockUsage := rfl
@[simp] theorem setBase_memoryBase (h : Heap) (i : ℕ) (a : ℕ) :
    (h.setBase i a).memoryBase = Function.update h.memoryBase i a := rfl

theorem Heap.usageAt_eq (h : Heap) {i : ℕ} (hi : 0 < i) (hb : i ≤ heapSize) :
    h.usageAt i = some (h.blockUsage i) := if_pos ⟨hi,hb⟩
theorem Heap.baseAt_eq (h : Heap) {i : ℕ} (hi : 0 < i) (hb : i ≤ heapSize) :
    h.baseAt i = some (h.memoryBase i) := if_pos ⟨hi,hb⟩

/-- After the call both children carry their true bases. -/
theorem setMemoryBlockDivisionBases_spec {h : Heap} (hb : BasesOk h) {i : ℕ} (hi : 0 < i)
    (hin : i < pageQuantity) (hn : h.memoryBase i ≠ null) :
    ∃ h', setMemoryBlockDivisionBases i h = some h' ∧ h'.blockUsage = h.blockUsage ∧
      BasesOk h' ∧ BasesGrow h h' ∧ h'.memoryBase (left i) ≠ null ∧
      h'.memoryBase (right i) ≠ null := by
  have hl : 0 < left i ∧ left i ≤ heapSize := by
    simp only [left,heapSize_eq,pageQuantity_eq] at *; omega
  have hr : 0 < right i ∧ right i ≤ heapSize := by
    simp only [right,heapSize_eq,pageQuantity_eq] at *; omega
  have hlr : left i ≠ right i := by simp only [left,right]; omega
  have hile : i ≤ heapSize := by simp only [heapSize_eq,pageQuantity_eq] at *; omega
  have hbase := hb.eq_nodeBase hi hile hn
  simp only [setMemoryBlockDivisionBases,h.baseAt_eq hl.1 hl.2,h.baseAt_eq hr.1 hr.2,
    Option.bind_eq_bind,Option.bind_some]
  split
  · rw [h.baseAt_eq hi hile,Option.bind_some,divisions_eq hi hin,hbase,← nodeBase_right hi hin]
    refine ⟨_,rfl,rfl,?_,?_,?_,?_⟩
    · intro j hj hjle
      simp only [setBase_memoryBase,Function.update_apply]
      split
      · next he => exact Or.inr (by rw [he])
      · split
        · next he => exact Or.inr (by rw [he,nodeBase_left hi hin])
        · exact hb j hj hjle
    · intro j hj
      simp only [setBase_memoryBase,Function.update_apply]
      split
      · next he => rw [he] at hj ⊢; exact (hb.eq_nodeBase hr.1 hr.2 hj).symm
      · split
        · next he =>
          rw [he] at hj ⊢
          rw [hb.eq_nodeBase hl.1 hl.2 hj,nodeBase_left hi hin]
        · rfl
    · simp only [setBase_memoryBase,Function.update_apply,hlr,↓reduceIte]
      exact nodeBase_ne_null i
    · simp only [setBase_memoryBase,Function.update_self]
      exact nodeBase_ne_null (right i)
  · next hc =>
    push Not at hc
    exact ⟨h,rfl,rfl,hb,BasesGrow.refl h,hc.1,hc.2⟩

def searchAddress : Option ℕ → ℕ
  | none => null
  | some n => nodeBase n

def searchUsage (u : ℕ → Usage) (levels : ℕ) : Option ℕ → ℕ → Usage
  | none => u
  | some n => markPath u n levels

structure Descended (h h' : Heap) (levels : ℕ) (found : Option ℕ) : Prop where
  usage : h'.blockUsage = searchUsage h.blockUsage levels found
  bases : BasesOk h'
  grow : BasesGrow h h'
  known : ∀ n, found = some n → h'.memoryBase n ≠ null

theorem getPagesRecursive_spec (fuel levels : ℕ) {i : ℕ} {h : Heap} (hi : 0 < i)
    (hfit : Fits levels i) (hlev : levels < fuel) (hb : BasesOk h) (hn : h.memoryBase i ≠ null) :
    ∃ h', getPagesRecursive fuel i levels h =
        some (searchAddress (firstFree h.blockUsage levels i),h') ∧
      Descended h h' levels (firstFree h.blockUsage levels i) := by
  induction fuel generalizing levels i h with
  | zero => omega
  | succ fuel ih =>
    have hile : i ≤ heapSize := by
      have hp : 1 ≤ 2^levels := Nat.one_le_two_pow
      have := Nat.mul_le_mul_left (i+1) hp
      simp only [Fits] at hfit
      omega
    simp only [getPagesRecursive,h.usageAt_eq hi hile,Option.bind_eq_bind,Option.bind_some]
    cases levels with
    | zero =>
      simp only [firstFree]
      cases hu : h.blockUsage i with
      | unused =>
        refine ⟨h.setUsage i .allocated,?_,by simp [searchUsage,markPath],hb,BasesGrow.refl h,?_⟩
        · simp [searchAddress,hb.eq_nodeBase hi hile hn]
        · rintro n hni
          cases hni
          exact hn
      | halfUsed => exact ⟨h,by simp [searchAddress],rfl,hb,BasesGrow.refl h,by simp⟩
      | fullyUsed => exact ⟨h,by simp [searchAddress],rfl,hb,BasesGrow.refl h,by simp⟩
      | allocated => exact ⟨h,by simp [searchAddress],rfl,hb,BasesGrow.refl h,by simp⟩
    | succ levels =>
      by_cases hf : h.blockUsage i = .fullyUsed ∨ h.blockUsage i = .allocated
      · exact ⟨h,by simp [firstFree,hf,searchAddress],by simp [firstFree,hf,searchUsage],hb,
          BasesGrow.refl h,by simp [firstFree,hf]⟩
      · -- the two recursive calls start from the same markers: a failed descent keeps them
        have hin := hfit.inner
        have hleft : 0 < left i := by simp only [left]; omega
        have hright : 0 < right i := by simp only [right]; omega
        have hcast : ((levels+1 : ℕ) : ℤ) - 1 = levels := by push_cast; ring
        obtain ⟨h₁,he₁,hu₁,hb₁,hg₁,hl₁,hr₁⟩ := setMemoryBlockDivisionBases_spec hb hi hin hn
        rw [if_neg hf,if_neg (by omega),he₁,Option.bind_some,hcast]
        obtain ⟨h₂,he₂,hd₂⟩ := ih levels hleft hfit.left (by omega) hb₁ hl₁
        rw [hu₁] at he₂ hd₂
        rw [he₂,Option.bind_some]
        simp only [firstFree,if_neg hf]
        cases hfl : firstFree h.blockUsage levels (left i) with
        | some n =>
          rw [hfl] at hd₂
          have hs := (firstFree_route hfl).start
          have hup : n / 2^(levels+1) = i := by rw [div_pow_succ,hs,left]; omega
          refine ⟨h₂.setUsage i .halfUsed,?_,?_,hd₂.bases,hg₁.trans hd₂.grow,?_⟩
          · simp [searchAddress,nodeBase_ne_null]
          · simp only [setUsage_blockUsage,hd₂.usage,hu₁,Option.some_or,searchUsage,markPath,hs,
              hup,↓reduceIte]
          · rintro m hm
            exact hd₂.known m (by simpa using hm)
        | none =>
          rw [hfl] at hd₂
          have hu₂ : h₂.blockUsage = h.blockUsage := by rw [hd₂.usage,hu₁]; rfl
          obtain ⟨h₃,he₃,hd₃⟩ := ih levels hright hfit.right (by omega) hd₂.bases
            (by rw [hd₂.grow _ hr₁]; exact hr₁)
          rw [hu₂] at he₃ hd₃
          have hgrow := hg₁.trans (hd₂.grow.trans hd₃.grow)
          simp only [searchAddress,ne_eq,not_true_eq_false,↓reduceIte,he₃,Option.bind_some]
          cases hfr : firstFree h.blockUsage levels (right i) with
          | none =>
            rw [hfr] at hd₃
            refine ⟨h₃,by simp,?_,hd₃.bases,hgrow,by simp⟩
            rw [hd₃.usage,hu₂]
            rfl
          | some n =>
            rw [hfr] at hd₃
            have hs := (firstFree_route hfr).start
            have hup : n / 2^(levels+1) = i := by rw [div_pow_succ,hs,right]; omega
            have hlr : right i ≠ left i := by simp only [left,right]; omega
            have husage : h₃.blockUsage = markPath h.blockUsage n levels := by
              rw [hd₃.usage,hu₂]
              rfl
            have hknown : ∀ m, Option.or none (some n) = some m → h₃.memoryBase m ≠ null :=
              fun m hm => hd₃.known m (by simpa using hm)
            by_cases hcond : h₃.blockUsage (right i) ≠ .halfUsed ∧ h₃.blockUsage (left i) ≠ .halfUsed
            · refine ⟨h₃.setUsage i .fullyUsed,?_,?_,hd₃.bases,hgrow,hknown⟩
              · simp [nodeBase_ne_null,hcond]
              · rw [husage] at hcond
                simp only [setUsage_blockUsage,husage,Option.none_or,searchUsage,markPath,hs,hup,
                  hlr,hcond,ne_eq,not_false_eq_true,and_self,↓reduceIte]
            · refine ⟨h₃,?_,?_,hd₃.bases,hgrow,hknown⟩
              · simp only [ne_eq] at hcond
                simp [nodeBase_ne_null,hcond]
              · rw [husage] at hcond
                simp only [husage,Option.none_or,searchUsage,markPath,hs,hup,hlr,hcond,↓reduceIte]

end ComplexOS.BuddyAllocator
