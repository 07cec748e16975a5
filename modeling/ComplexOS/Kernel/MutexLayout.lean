import ComplexOS.Kernel.Boot
import Mathlib.Data.BitVec

/-! # The mutex table as words of memory

The slots of the table follow each other without a gap, and the value is the last word of
its slot. The exchange of `testAndSetLock` is as wide as a register of 64 bits, so that it
reaches into the slot behind.
-/
namespace ComplexOS

/-- The words of a `mutex_t`: two identities, 50 characters and their padding, the pairs of
the blocked list, its quantity and the value. -/
def wordsPerMutex : ℕ := 79

def ThreadId.word (t : ThreadId) (j : ℕ) : BitVec 32 :=
  BitVec.ofInt 32 (if j = 0 then t.pid else t.thread)

/-- Four characters, the first in the lowest byte. -/
def nameWord (name : ℕ → UInt8) (j : ℕ) : BitVec 32 :=
  (name (4*j+3)).toBitVec++(name (4*j+2)).toBitVec++(name (4*j+1)).toBitVec++(name (4*j)).toBitVec

def Mutex.word (m : Mutex) (j : ℕ) : BitVec 32 :=
  if j < 2 then m.creator.word j
  else if j < 4 then m.lockProcess.word (j-2)
  else if j < 17 then nameWord m.name (j-4)
  else if j < 77 then (m.list.blocked ((j-17)/2)).word ((j-17)%2)
  else if j = 77 then BitVec.ofInt 32 m.list.blockedQuantity
  else BitVec.ofInt 32 m.value

def Kernel.mutexWord (k : Kernel) (a : ℕ) : BitVec 32 :=
  (k.mutexes (a/wordsPerMutex : ℕ)).word (a%wordsPerMutex)

/-- `xchg rax, [rdi]`, with the address in words. -/
def xchg (memory : ℕ → BitVec 32) (rdi : ℕ) (rax : BitVec 64) : BitVec 64 × (ℕ → BitVec 32) :=
  (memory (rdi+1)++memory rdi,
    Function.update (Function.update memory rdi (rax.extractLsb' 0 32)) (rdi+1)
      (rax.extractLsb' 32 32))

def valueAddress (mutex : ℕ) : ℕ := wordsPerMutex*mutex+78

def Kernel.OthersKept (k k' : Kernel) (mutex : ℤ) : Prop :=
  ∀ i, InMutexes i → i ≠ mutex → ∀ j < wordsPerMutex, (k'.mutexes i).word j = (k.mutexes i).word j

namespace Mutex
variable {m : Mutex} {j : ℕ}

/-- The value is the last word, and no other. -/
theorem word_value {v : ℤ} (hj : j < wordsPerMutex) : { m with value := v }.word j =
    if j = 78 then BitVec.ofInt 32 v else m.word j := by
  unfold Mutex.word
  by_cases h : j = 78
  · subst h
    rfl
  · rw [if_neg h]
    have h77 : ¬ j < 77 → j = 77 := by
      have : j < 79 := hj
      omega
    by_cases hlt : j < 77
    · simp only [hlt,if_true]
    · rw [h77 hlt]
      rfl

/-- The creator's pid is the first. -/
theorem word_creatorPid {p : ℤ} : { m with creator := { m.creator with pid := p } }.word j =
    if j = 0 then BitVec.ofInt 32 p else m.word j := by
  unfold Mutex.word
  by_cases h : j = 0
  · subst h
    rfl
  · rw [if_neg h]
    by_cases h2 : j < 2
    · simp only [h2,if_true]
      unfold ThreadId.word
      rw [if_neg h,if_neg h]
    · simp only [h2,if_false]

end Mutex

namespace Kernel
variable {k k' : Kernel} {mutex : ℤ} {t : ThreadId} {o : DownOutcome}

theorem mutexWord_at {i j : ℕ} (hj : j < wordsPerMutex) :
    k.mutexWord (wordsPerMutex*i+j) = (k.mutexes i).word j := by
  have hpos : 0 < wordsPerMutex := by decide
  unfold mutexWord
  rw [Nat.mul_add_div hpos,Nat.div_eq_of_lt hj,Nat.mul_add_mod,Nat.mod_eq_of_lt hj,Nat.add_zero]

/-- On the words of the table `testAndSetLock` is the exchange with `0`. -/
theorem testAndSetLock_words (mutex : ℕ) :
    (k.testAndSetLock mutex).mutexWord = (xchg k.mutexWord (valueAddress mutex) 0).2 := by
  funext a
  obtain ⟨i,j,hj,rfl⟩ : ∃ i j, j < wordsPerMutex ∧ a = wordsPerMutex*i+j :=
    ⟨_,_,Nat.mod_lt a (by decide),(Nat.div_add_mod a wordsPerMutex).symm⟩
  have hlow : wordsPerMutex*i+j = valueAddress mutex ↔ i = mutex ∧ j = 78 := by
    unfold valueAddress wordsPerMutex at *
    omega
  have hhigh : wordsPerMutex*i+j = valueAddress mutex+1 ↔ i = mutex+1 ∧ j = 0 := by
    unfold valueAddress wordsPerMutex at *
    omega
  rw [mutexWord_at hj,testAndSetLock_mutexes]
  show _ = Function.update (Function.update k.mutexWord (valueAddress mutex) 0)
    (valueAddress mutex+1) 0 (wordsPerMutex*i+j)
  by_cases hi : i = mutex
  · subst hi
    rw [marked_self,Mutex.word_value hj,Function.update_of_ne (fun hx => by have := hhigh.mp hx; omega)]
    by_cases h78 : j = 78
    · rw [if_pos h78,hlow.mpr ⟨rfl,h78⟩,Function.update_self]
      rfl
    · rw [if_neg h78,Function.update_of_ne (fun hx => h78 (hlow.mp hx).2),mutexWord_at hj]
  · have hmi : (i : ℤ) ≠ mutex := by exact_mod_cast hi
    by_cases hi' : i = mutex+1
    · subst hi'
      have hnext : marked k mutex { k.mutexes mutex with value := locked } ((mutex+1 : ℕ) : ℤ) =
          { k.mutexes ((mutex+1 : ℕ) : ℤ) with
            creator := { (k.mutexes ((mutex+1 : ℕ) : ℤ)).creator with pid := 0 } } := by
        unfold marked
        rw [Function.update_of_ne hmi]
        push_cast
        rw [Function.update_self]
      rw [hnext,Mutex.word_creatorPid]
      by_cases h0 : j = 0
      · rw [if_pos h0,hhigh.mpr ⟨rfl,h0⟩,Function.update_self]
        rfl
      · rw [if_neg h0,Function.update_of_ne (fun hx => h0 (hhigh.mp hx).2),
          Function.update_of_ne (fun hx => hi (hlow.mp hx).1),mutexWord_at hj]
    · have hfar : (i : ℤ) ≠ mutex+1 := by exact_mod_cast hi'
      rw [marked_far hmi hfar,Function.update_of_ne (fun hx => hi' (hhigh.mp hx).1),
        Function.update_of_ne (fun hx => hi (hlow.mp hx).1),mutexWord_at hj]

/-- A call for a valid mutex leaves the words of all other slots alone if and only if the
first word behind its slot, the creator's pid of the next one, is 0 already. -/
theorem mutexDown_frame (hv : k.isValidMutex mutex) (hi : mutex < maxMutexes-1)
    (h : k.mutexDown mutex t = some (o,k')) :
    OthersKept k k' mutex ↔ (k.mutexes (mutex+1)).word 0 = 0 := by
  obtain ⟨hn,-⟩ | ⟨-,-,m,-,hm⟩ := mutexDown_cases h
  · exact absurd hv hn
  · have hnext : k'.mutexes (mutex+1) = { k.mutexes (mutex+1) with
        creator := { (k.mutexes (mutex+1)).creator with pid := 0 } } := by
      rw [hm]
      unfold marked
      rw [Function.update_of_ne (ne_succ mutex).symm,Function.update_self]
    unfold OthersKept
    constructor
    · intro hkept
      have hin : InMutexes (mutex+1) := by
        have h0 := hv.1
        constructor <;> omega
      have hw := hkept (mutex+1) hin (ne_succ mutex).symm 0 (by decide)
      rw [hnext,Mutex.word_creatorPid,if_pos rfl] at hw
      exact hw.symm
    · intro hz i hin hne j hj
      by_cases hi' : i = mutex+1
      · rw [hi',hnext,Mutex.word_creatorPid]
        by_cases h0 : j = 0
        · rw [if_pos h0,h0,hz]
          rfl
        · rw [if_neg h0]
      · rw [hm,marked_far hne hi']

/-- In a table whose second slot belongs to pid 0 already. -/
theorem mutexDown_frame_zero : ∃ k k' : Kernel, k.isValidMutex 0 ∧
    k.mutexDown 0 ⟨1,0⟩ = some (.returned,k') ∧ OthersKept k k' 0 := by
  let m : Mutex := { clearedMutex with creator := ⟨0,0⟩ }
  let k : Kernel := { Kernel.static with mutexes := fun _ => m }
  have hv : k.isValidMutex 0 := by decide
  have hcall : k.mutexDown 0 ⟨1,0⟩ = some (.returned,k.take 0 ⟨1,0⟩) := mutexDown_take hv (by decide)
  exact ⟨k,_,hv,hcall,(mutexDown_frame hv (by decide) hcall).mpr rfl⟩

/-- What the exchange leaves behind the slot. -/
theorem take_next : (k.take mutex t).mutexes (mutex+1) = { k.mutexes (mutex+1) with
    creator := { (k.mutexes (mutex+1)).creator with pid := 0 } } := by
  show marked k mutex _ (mutex+1) = _
  unfold marked
  rw [Function.update_of_ne (ne_succ mutex).symm,Function.update_self]

/-- After the boot, locking the mutex of the channels makes the unused slot behind it a
valid mutex. -/
theorem mutexDown_frame_fails : ∃ s k', Registry.main Registry.static = .ok ((),s) ∧
    s.kernel.mutexDown 2 ⟨1,0⟩ = some (.returned,k') ∧ ¬ s.kernel.isValidMutex 3 ∧
      k'.isValidMutex 3 ∧ ¬ OthersKept s.kernel k' 2 := by
  obtain ⟨s,hs,hb⟩ := Registry.main_booted
  have h2 : s.kernel.mutexes 2 = bootMutex 2 := hb.mutexes 2 (by decide)
  have h3 : s.kernel.mutexes 3 = clearedMutex := hb.mutexes 3 (by decide)
  have hv : s.kernel.isValidMutex 2 := by
    refine ⟨by decide,by decide,?_⟩
    rw [h2]
    decide
  have hf : (s.kernel.mutexes 2).value ≠ locked := by
    rw [h2]
    decide
  have hnext : (s.kernel.take 2 ⟨1,0⟩).mutexes (2+1) = _ := take_next
  refine ⟨s,_,hs,mutexDown_take hv hf,?_,?_,?_⟩
  · rintro ⟨-,-,hx⟩
    rw [h3] at hx
    exact hx rfl
  · refine ⟨by decide,by decide,?_⟩
    rw [show (3 : ℤ) = 2+1 from rfl,hnext]
    show (0 : ℤ) ≠ notUsed
    decide
  · intro hkept
    have hw := hkept (2+1) (by decide) (by decide) 0 (by decide)
    rw [hnext,Mutex.word_creatorPid,if_pos rfl,show (2+1 : ℤ) = 3 from rfl,h3] at hw
    exact absurd hw (by decide)

end Kernel
end ComplexOS
