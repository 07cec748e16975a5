import ComplexOS.Kernel.Threads
import ComplexOS.Library.SlotTable

/-! # Blocked lists

Mutexes and semaphores keep their waiters in one shape: an array of thread
identities with an entry count. A list holds a set of waiters when every one of
them has exactly one entry, nothing else has, and the count is right.
-/
namespace ComplexOS

def maxBlocked : ℕ := 30

structure BlockedList where
  blocked : ℕ → ThreadId
  blockedQuantity : ℤ

def ThreadId.used (t : ThreadId) : Prop := t.pid ≠ notUsed
instance : DecidablePred ThreadId.used := fun t => inferInstanceAs (Decidable (t.pid ≠ notUsed))

def ThreadId.unused : ThreadId := ⟨notUsed,notUsed⟩

/-- `FULL_LIST` is `none`. -/
def nextListIndexAvailable (list : ℕ → ThreadId) (length : ℕ) : Option ℕ :=
  SlotTable.firstFree ThreadId.used length list

namespace BlockedList
open SlotTable
variable (l : BlockedList) (t : ThreadId)

def empty : BlockedList := ⟨fun _ => ThreadId.unused,0⟩

/-- The body of `addToBlocked` and of `addToSemaphoreBlocked`. -/
def add : Option BlockedList :=
  (nextListIndexAvailable l.blocked maxBlocked).map (fun i =>
    ⟨Function.update l.blocked i t,l.blockedQuantity+1⟩)

/-- The first used entry leaves the list: the loop shared by `unlockProcess` and
`unlockSemaphoreProcess`. -/
def pop : Option (ThreadId × BlockedList) :=
  if l.blockedQuantity = 0 then none
  else (firstUsed ThreadId.used maxBlocked l.blocked).map (fun i =>
    (l.blocked i,⟨Function.update l.blocked i ThreadId.unused,l.blockedQuantity-1⟩))

/-- The entries of the list are exactly the waiters, each once. -/
structure Holds (W : Finset ThreadId) : Prop where
  quantity : l.blockedQuantity = W.card
  entry : ∀ i, i < maxBlocked → (l.blocked i).used → l.blocked i ∈ W
  slot : ∀ w ∈ W, ∃ i, i < maxBlocked ∧ l.blocked i = w
  once : ∀ i j, i < maxBlocked → j < maxBlocked → (l.blocked i).used →
    l.blocked i = l.blocked j → i = j
  used : ∀ w ∈ W, w.used

variable {l t} {l' : BlockedList} {w : ThreadId} {W : Finset ThreadId}

theorem not_used_unused : ¬ ThreadId.unused.used := fun h => h rfl

theorem empty_holds : empty.Holds ∅ :=
  ⟨rfl,fun _ _ h => (not_used_unused h).elim,by simp,fun _ _ _ _ h => (not_used_unused h).elim,
    by simp⟩

theorem Holds.exists_unique (h : l.Holds W) {w : ThreadId} (hw : w ∈ W) :
    ∃! i, i < maxBlocked ∧ l.blocked i = w := by
  obtain ⟨i,hi,he⟩ := h.slot w hw
  refine ⟨i,⟨hi,he⟩,fun j hj => ?_⟩
  exact h.once j i hj.1 hi (hj.2.symm ▸ h.used w hw) (hj.2.trans he.symm)

/-- The occupied slots and the waiters correspond. -/
theorem Holds.card_occupied (h : l.Holds W) :
    (occupied ThreadId.used maxBlocked l.blocked).card = W.card := by
  refine Finset.card_bij (fun i _ => l.blocked i) ?_ ?_ ?_
  · intro i hi
    obtain ⟨hi,hu⟩ := mem_occupied.mp hi
    exact h.entry i hi hu
  · intro i hi j hj he
    obtain ⟨hi,hu⟩ := mem_occupied.mp hi
    exact h.once i j hi (mem_occupied.mp hj).1 hu he
  · intro w hw
    obtain ⟨i,hi,he⟩ := h.slot w hw
    exact ⟨i,mem_occupied.mpr ⟨hi,he ▸ h.used w hw⟩,he⟩

theorem Holds.card_le (h : l.Holds W) : W.card ≤ maxBlocked :=
  h.card_occupied ▸ occupied_card_le

/-- Below the limit a new waiter finds a slot. -/
theorem Holds.add (h : l.Holds W) (ht : t ∉ W) (hu : t.used) (hc : W.card < maxBlocked) :
    ∃ l', l.add t = some l' ∧ l'.Holds (insert t W) := by
  cases hf : firstFree ThreadId.used maxBlocked l.blocked with
  | none =>
    have := firstFree_eq_none_iff.mp hf
    rw [h.card_occupied] at this
    omega
  | some k =>
    obtain ⟨hk,hfree⟩ := firstFree_some hf
    refine ⟨⟨Function.update l.blocked k t,l.blockedQuantity+1⟩,
      by simp [BlockedList.add,nextListIndexAvailable,hf],?_,?_,?_,?_,?_⟩
    · rw [Finset.card_insert_of_notMem ht]
      simp [h.quantity]
    · intro i hi hx
      by_cases hik : i = k
      · simp [hik]
      · simp only [Function.update_of_ne hik] at hx ⊢
        exact Finset.mem_insert_of_mem (h.entry i hi hx)
    · intro w hw
      rcases Finset.mem_insert.mp hw with rfl | hw
      · exact ⟨k,hk,by simp⟩
      · obtain ⟨i,hi,he⟩ := h.slot w hw
        have hik : i ≠ k := fun hx => hfree (hx ▸ he ▸ h.used w hw)
        exact ⟨i,hi,by simp [hik,he]⟩
    · intro i j hi hj hx he
      by_cases hik : i = k
      · by_cases hjk : j = k
        · rw [hik,hjk]
        · simp only [hik,Function.update_self,Function.update_of_ne hjk] at he
          exact (ht (he ▸ h.entry j hj (he ▸ hu))).elim
      · by_cases hjk : j = k
        · simp only [hjk,Function.update_self,Function.update_of_ne hik] at he hx
          exact (ht (he ▸ h.entry i hi hx)).elim
        · simp only [Function.update_of_ne hik,Function.update_of_ne hjk] at he hx
          exact h.once i j hi hj hx he
    · intro w hw
      rcases Finset.mem_insert.mp hw with rfl | hw
      · exact hu
      · exact h.used w hw

/-- A write of an unused identity over the entry of a waiter takes that waiter out. -/
theorem Holds.erase (h : l.Holds W) {k : ℕ} (hk : k < maxBlocked) (hx : (l.blocked k).used)
    {e : ThreadId} (he : ¬ e.used) :
    Holds ⟨Function.update l.blocked k e,l.blockedQuantity-1⟩ (W.erase (l.blocked k)) := by
  have hmem := h.entry k hk hx
  refine ⟨?_,?_,?_,?_,?_⟩
  · have := Finset.card_erase_add_one hmem
    have := h.quantity
    simp only
    omega
  · intro i hi hu
    by_cases hik : i = k
    · simp only [hik,Function.update_self] at hu
      exact (he hu).elim
    · simp only [Function.update_of_ne hik] at hu ⊢
      exact Finset.mem_erase.mpr ⟨fun hb => hik (h.once i k hi hk hu hb),h.entry i hi hu⟩
  · intro w hw
    obtain ⟨hne,hw⟩ := Finset.mem_erase.mp hw
    obtain ⟨i,hi,hiw⟩ := h.slot w hw
    have hik : i ≠ k := fun hx => hne (by rw [← hiw,hx])
    exact ⟨i,hi,by simp [hik,hiw]⟩
  · intro i j hi hj hu hb
    by_cases hik : i = k
    · simp only [hik,Function.update_self] at hu
      exact (he hu).elim
    · by_cases hjk : j = k
      · simp only [hjk,Function.update_self,Function.update_of_ne hik] at hu hb
        exact (he (hb ▸ hu)).elim
      · simp only [Function.update_of_ne hik,Function.update_of_ne hjk] at hu hb
        exact h.once i j hi hj hu hb
  · exact fun w hw => h.used w (Finset.mem_of_mem_erase hw)

theorem Holds.pop_empty (h : l.Holds ∅) : l.pop = none := by
  rw [pop,if_pos (by simpa using h.quantity)]

/-- With waiters present one of them, and only it, leaves. -/
theorem Holds.pop (h : l.Holds W) (hne : W.Nonempty) :
    ∃ w ∈ W, ∃ l', l.pop = some (w,l') ∧ l'.Holds (W.erase w) := by
  have hq : l.blockedQuantity ≠ 0 := by
    have := Finset.card_pos.mpr hne
    rw [h.quantity]
    omega
  cases hf : firstUsed ThreadId.used maxBlocked l.blocked with
  | none =>
    obtain ⟨w,hw⟩ := hne
    obtain ⟨i,hi,he⟩ := h.slot w hw
    exact (firstUsed_none hf hi (he ▸ h.used w hw)).elim
  | some k =>
    obtain ⟨hk,hu⟩ := firstUsed_some hf
    refine ⟨l.blocked k,h.entry k hk hu,_,?_,h.erase hk hu not_used_unused⟩
    rw [BlockedList.pop,if_neg hq,hf]
    rfl

theorem Holds.add_some (h : l.Holds W) (ht : t ∉ W) (hu : t.used) (ha : l.add t = some l') :
    l'.Holds (insert t W) := by
  have hlt : W.card < maxBlocked := by
    refine lt_of_le_of_ne h.card_le (fun he => ?_)
    rw [← h.card_occupied,← firstFree_eq_none_iff] at he
    rw [BlockedList.add,nextListIndexAvailable,he] at ha
    cases ha
  obtain ⟨l₁,h₁,hl₁⟩ := h.add ht hu hlt
  rwa [← Option.some.inj (h₁.symm.trans ha)]

theorem Holds.pop_some (h : l.Holds W) (hp : l.pop = some (w,l')) : w ∈ W ∧ l'.Holds (W.erase w) := by
  rcases W.eq_empty_or_nonempty with rfl | hne
  · rw [h.pop_empty] at hp
    cases hp
  · obtain ⟨w₁,hw₁,l₁,h₁,hl₁⟩ := h.pop hne
    obtain ⟨rfl,rfl⟩ := Prod.mk.inj (Option.some.inj (h₁.symm.trans hp))
    exact ⟨hw₁,hl₁⟩

end BlockedList
end ComplexOS
