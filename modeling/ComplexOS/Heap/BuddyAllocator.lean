import ComplexOS.Library.BinaryNodes

/-! # The buddy memory allocator

The two static arrays are functions of the node number: entry `index` is the one
the source reads at `index - 1`. Reading or writing a node outside `1..heapSize`
answers `none`. The heap mutex brackets each entry point, so one call is one
transition and the bracket itself leaves the arrays alone.
-/
namespace ComplexOS.BuddyAllocator

def null : ℕ := 0
def pageSize : ℕ := 0x1000
def pageQuantity : ℕ := 2048
def heapSize : ℕ := 2*pageQuantity - 1
def base : ℕ := 0x600000

inductive Usage
  | fullyUsed
  | halfUsed
  | unused
  | allocated
  deriving DecidableEq, Repr

structure Heap where
  memoryBase : ℕ → ℕ
  blockUsage : ℕ → Usage

def left (x : ℕ) : ℕ := 2*x
def right (x : ℕ) : ℕ := 2*x + 1
def parent (x : ℕ) : ℕ := x/2

def InArray (index : ℕ) : Prop := 0 < index ∧ index ≤ heapSize
instance (index : ℕ) : Decidable (InArray index) := inferInstanceAs (Decidable (_ ∧ _))

def Heap.usageAt (h : Heap) (index : ℕ) : Option Usage :=
  if InArray index then some (h.blockUsage index) else none
def Heap.baseAt (h : Heap) (index : ℕ) : Option ℕ :=
  if InArray index then some (h.memoryBase index) else none
def Heap.setUsage (h : Heap) (index : ℕ) (u : Usage) : Heap :=
  { h with blockUsage := Function.update h.blockUsage index u }
def Heap.setBase (h : Heap) (index : ℕ) (a : ℕ) : Heap :=
  { h with memoryBase := Function.update h.memoryBase index a }

/-- The loop `while(x >>= 1) result++` on a 64-bit word. -/
def log2Loop : ℕ → ℕ → ℕ → ℕ
  | 0, _, result => result
  | fuel+1, x, result => if x/2 = 0 then result else log2Loop fuel (x/2) (result+1)

def log2 (x : ℕ) : ℕ := log2Loop 64 x (if x % 2 ≠ 0 then 1 else 0)

def maxLevels : ℕ := log2 pageQuantity

/-- Number of tree levels: the children of a node of the last one are outside the arrays. -/
def treeLevels : ℕ := 12

def initializeHeap : Heap where
  memoryBase := Function.update (fun _ => null) 1 base
  blockUsage := fun _ => .unused

def setMemoryBlockDivisionBases (parentIndex : ℕ) (h : Heap) : Option Heap := do
  let leftBase ← h.baseAt (left parentIndex)
  let rightBase ← h.baseAt (right parentIndex)
  if leftBase = null ∨ rightBase = null then
    let divisions := log2 parentIndex + 1 - (if parentIndex % 2 ≠ 0 then 1 else 0)
    let memory ← h.baseAt parentIndex
    let h := h.setBase (left parentIndex) memory
    pure (h.setBase (right parentIndex) ((pageSize*pageQuantity) / 2^divisions + memory))
  else pure h

/-- The first argument counts the tree levels still inside the arrays. -/
def getPagesRecursive : ℕ → ℕ → ℤ → Heap → Option (ℕ × Heap)
  | 0, _, _, _ => none
  | fuel+1, index, levels, h => do
    let usage ← h.usageAt index
    if usage = .fullyUsed ∨ usage = .allocated then pure (null,h)
    else if levels = 0 then
      if usage = .halfUsed then pure (null,h)
      else pure (h.memoryBase index, h.setUsage index .allocated)
    else
      let h ← setMemoryBlockDivisionBases index h
      let (leftAddress,h) ← getPagesRecursive fuel (left index) (levels-1) h
      if leftAddress ≠ null then pure (leftAddress, h.setUsage index .halfUsed)
      else
        let (rightAddress,h) ← getPagesRecursive fuel (right index) (levels-1) h
        if rightAddress ≠ null ∧ h.blockUsage (right index) ≠ .halfUsed
            ∧ h.blockUsage (left index) ≠ .halfUsed then
          pure (rightAddress, h.setUsage index .fullyUsed)
        else pure (rightAddress,h)

/-- `quantity` is an `int` handed to a `uint64_t` parameter. -/
def getPages (quantity : ℤ) (h : Heap) : Option (ℕ × Heap) :=
  let levelsToDescend : ℤ :=
    if quantity = 1 then maxLevels else maxLevels - log2 (quantity % 2^64).toNat
  getPagesRecursive treeLevels 1 levelsToDescend h

def allocatePages (pages : ℤ) (h : Heap) : Option (ℕ × Heap) :=
  if pages = 0 ∨ pages > pageQuantity then some (null,h) else getPages pages h

/-- One activation of `freeMemoryRecursive`: the four tests in source order. -/
def refreshUsage (index : ℕ) (h : Heap) : Heap :=
  let l := h.blockUsage (left index)
  let r := h.blockUsage (right index)
  let h := if l = .unused ∧ r = .unused then h.setUsage index .unused else h
  let h := if l = .fullyUsed ∨ r = .fullyUsed then h.setUsage index .halfUsed else h
  let h := if l = .halfUsed ∨ r = .halfUsed then h.setUsage index .halfUsed else h
  if l = .allocated ∨ r = .allocated then h.setUsage index .halfUsed else h

def freeMemoryRecursive : ℕ → ℕ → Heap → Option Heap
  | 0, _, _ => none
  | fuel+1, index, h =>
    if 0 < index then
      if InArray (right index) then freeMemoryRecursive fuel (parent index) (refreshUsage index h)
      else none
    else some h

/-- `((unsigned long)memoryBase - (unsigned long)base)/PAGE_SIZE`. -/
def pageNumber (memoryBase : ℕ) : ℕ := (memoryBase + 2^64 - base) % 2^64 / pageSize

/-- Conversion of an unsigned long to `int`. -/
def toInt (x : ℕ) : ℤ := Int.bmod x (2^32)

def isAllocatedPageRecursive (h : Heap) (memoryBase : ℕ) : ℕ → ℤ → Option Bool
  | 0, _ => none
  | fuel+1, index =>
    if index ≤ 0 then some false
    else do
      let usage ← h.usageAt index.toNat
      if usage = .allocated ∧ h.memoryBase index.toNat = memoryBase then pure true
      else if usage = .unused then isAllocatedPageRecursive h memoryBase fuel (index/2)
      else pure false

def isAllocatedPage (h : Heap) (memoryBase : ℕ) : Option Bool :=
  isAllocatedPageRecursive h memoryBase (treeLevels+1)
    (toInt (pageNumber memoryBase + 1) + (heapSize/2 : ℕ))

def freeMemory (memoryBase : ℕ) (h : Heap) : Option (Bool × Heap) := do
  if ← isAllocatedPage h memoryBase then
    let index := toInt (pageNumber memoryBase) + (heapSize/2 : ℕ)
    let node := (index + 1).toNat
    let _ ← h.usageAt node
    let h ← freeMemoryRecursive treeLevels (parent node) (h.setUsage node .unused)
    pure (true,h)
  else pure (false,h)

theorem log2Loop_eq (fuel x result : ℕ) (hx : x < 2^fuel) :
    log2Loop fuel x result = Nat.log 2 x + result := by
  induction fuel generalizing x result with
  | zero =>
    have h0 : x = 0 := by simpa using hx
    simp [log2Loop, h0]
  | succ fuel ih =>
    rw [log2Loop]
    by_cases h0 : x/2 = 0
    · have hl : Nat.log 2 x = 0 := Nat.log_of_lt (by omega)
      simp [h0, hl]
    · have hp : 0 < Nat.log 2 x := Nat.log_pos (by omega) (by omega)
      have hd := Nat.log_div_base 2 x
      rw [if_neg h0, ih (x/2) _ (by rw [pow_succ] at hx; omega), hd]
      omega

/-- On a 64-bit word `log2` is the floor logarithm, plus one for odd words. -/
theorem log2_eq {x : ℕ} (hx : x < 2^64) : log2 x = Nat.log 2 x + x % 2 := by
  rw [log2, log2Loop_eq _ _ _ hx]
  rcases Nat.mod_two_eq_zero_or_one x with h | h <;> simp [h]

@[simp] theorem maxLevels_eq : maxLevels = 11 := by decide

end ComplexOS.BuddyAllocator
