import ComplexOS.Kernel.Registry
import ComplexOS.Heap.HeapCalls

/-! # What the calls make of the tables

One inversion for each call: the pieces that a call that comes back is made of, and the
states between them.
-/
namespace ComplexOS
open Kernel Call

namespace Registry
variable {s s' : Registry} {mutex semaphore pid thread : ℤ} {t : ThreadId} {name : List UInt8}
  {r : Option ℤ} {b : Bool} {e : Stop} {g : Kernel → Option Kernel} {u : Unit}
  {k : Kernel}

theorem piece_ok : piece g s = .ok (u,s') ↔ ∃ k, g s.kernel = some k ∧ s' = { s with kernel := k } := by
  unfold piece
  rw [partly_ok]
  constructor
  · intro h
    obtain ⟨k,hk,he⟩ := Option.map_eq_some_iff.mp h
    cases he
    exact ⟨k,hk,rfl⟩
  · rintro ⟨k,hk,rfl⟩
    rw [hk]
    rfl

theorem piece_fails (h : g s.kernel = none) : piece g s = .error .fails := by
  unfold piece
  apply partly_error.mpr
  rw [h]
  exact ⟨rfl,rfl⟩

theorem mutexDown_ok : mutexDown mutex t s = .ok (u,s') ↔
    ∃ k, s.kernel.mutexDown mutex t = some (.returned,k) ∧ s' = { s with kernel := k } := by
  unfold mutexDown
  split
  · rename_i k hk
    constructor
    · intro h
      cases h
      exact ⟨k,hk,rfl⟩
    · rintro ⟨k',hk',rfl⟩
      rw [hk] at hk'
      cases hk'
      rfl
  · rename_i hx
    constructor
    · intro h
      cases h
    · rintro ⟨k,hk,-⟩
      exact absurd hk (hx k)

theorem mutexUp_ok : mutexUp mutex t s = .ok (u,s') ↔
    ∃ k, s.kernel.mutexUp mutex t = some k ∧ s' = { s with kernel := k } := piece_ok

theorem createMutex_ok : createMutex pid name thread s = .ok (r,s') ↔
    ∃ k, s.kernel.createMutex pid name thread = (r,k) ∧ s' = { s with kernel := k } := by
  unfold createMutex
  constructor
  · intro h
    cases h
    exact ⟨_,rfl,rfl⟩
  · rintro ⟨k,hk,rfl⟩
    simp only [hk]

theorem releaseMutexBody_ok : releaseMutexBody mutex t s = .ok (b,s') ↔
    ∃ k, s.kernel.releaseMutexBody mutex t = some (b,k) ∧ s' = { s with kernel := k } := by
  unfold releaseMutexBody
  rw [partly_ok]
  constructor
  · intro h
    obtain ⟨⟨b',k⟩,hk,he⟩ := Option.map_eq_some_iff.mp h
    cases he
    exact ⟨k,hk,rfl⟩
  · rintro ⟨k,hk,rfl⟩
    rw [hk]
    rfl

/-- A name that is found is answered with the table's lock still held. -/
theorem getMutex_ok (h : getMutex name pid thread s = .ok (r,s')) :
    ∃ k, s.kernel.mutexDown adminMutex ⟨pid,thread⟩ = some (.returned,k) ∧
      ((∃ i, k.findMutex name = some i ∧ r = some i ∧ s' = { s with kernel := k }) ∨
        (k.findMutex name = none ∧ ∃ k₁ k₂, k.createMutex pid name thread = (r,k₁) ∧
          k₁.mutexUp adminMutex ⟨pid,thread⟩ = some k₂ ∧ s' = { s with kernel := k₂ })) := by
  obtain ⟨⟨⟩,s₁,hd,h⟩ := bind_ok.mp h
  obtain ⟨k,hk,rfl⟩ := mutexDown_ok.mp hd
  rw [get_bind] at h
  refine ⟨k,hk,?_⟩
  cases hf : k.findMutex name with
  | some i =>
    simp only [hf] at h
    cases h
    exact Or.inl ⟨i,rfl,rfl,rfl⟩
  | none =>
    simp only [hf] at h
    obtain ⟨r',s₂,hc,h⟩ := bind_ok.mp h
    obtain ⟨k₁,hk₁,rfl⟩ := createMutex_ok.mp hc
    obtain ⟨⟨⟩,s₃,hu,h⟩ := bind_ok.mp h
    obtain ⟨k₂,hk₂,rfl⟩ := mutexUp_ok.mp hu
    cases h
    exact Or.inr ⟨rfl,k₁,k₂,hk₁,hk₂,rfl⟩

theorem releaseMutex_ok (h : releaseMutex pid mutex thread s = .ok (b,s')) :
    ∃ k k₁ k₂, s.kernel.mutexDown adminMutex ⟨pid,thread⟩ = some (.returned,k) ∧
      k.releaseMutexBody mutex ⟨pid,thread⟩ = some (b,k₁) ∧
      k₁.mutexUp adminMutex ⟨pid,thread⟩ = some k₂ ∧ s' = { s with kernel := k₂ } := by
  obtain ⟨⟨⟩,s₁,hd,h⟩ := bind_ok.mp h
  obtain ⟨k,hk,rfl⟩ := mutexDown_ok.mp hd
  obtain ⟨b',s₂,hb,h⟩ := bind_ok.mp h
  obtain ⟨k₁,hk₁,rfl⟩ := releaseMutexBody_ok.mp hb
  obtain ⟨⟨⟩,s₃,hu,h⟩ := bind_ok.mp h
  obtain ⟨k₂,hk₂,rfl⟩ := mutexUp_ok.mp hu
  cases h
  exact ⟨k,k₁,k₂,hk,hk₁,hk₂,rfl⟩

/-- The error paths of `createSemaphore`: no room, and no mutex for a slot that has its
creator and name already. -/
theorem createSemaphore_ok (h : createSemaphore pid name thread s = .ok (r,s')) :
    (¬ (s.usedSemaphores < maxSemaphores ∧ name.length < maxName) ∧ r = none ∧ s' = s) ∨
      (s.usedSemaphores < maxSemaphores ∧ name.length < maxName ∧
        ∃ m s₁, getMutex name pid thread (claimSemaphore pid name thread s) = .ok (m,s₁) ∧
          ((m = none ∧ r = none ∧ s' = s₁) ∨ ∃ mutex, m = some mutex ∧
            r = some s.firstAvailableSemaphore ∧ s' = completeSemaphore mutex s₁)) := by
  unfold createSemaphore at h
  rw [get_bind] at h
  split at h
  · rename_i hc
    rw [modify_bind] at h
    obtain ⟨m,s₁,hg,h⟩ := bind_ok.mp h
    refine Or.inr ⟨hc.1,hc.2,m,s₁,hg,?_⟩
    cases m with
    | none =>
      cases h
      exact Or.inl ⟨rfl,rfl,rfl⟩
    | some mutex =>
      cases h
      exact Or.inr ⟨mutex,rfl,rfl,rfl⟩
  · rename_i hc
    cases h
    exact Or.inl ⟨hc,rfl,rfl⟩

theorem getSemaphore_ok (h : getSemaphore name pid thread s = .ok (r,s')) :
    ∃ k, s.kernel.mutexDown s.semaphoreMutex ⟨pid,thread⟩ = some (.returned,k) ∧
      ((∃ i, k.findSemaphore name = some i ∧ r = some i ∧ s' = { s with kernel := k }) ∨
        (k.findSemaphore name = none ∧ ∃ s₁ k₂,
          createSemaphore pid name thread { s with kernel := k } = .ok (r,s₁) ∧
          s₁.kernel.mutexUp s.semaphoreMutex ⟨pid,thread⟩ = some k₂ ∧
          s' = { s₁ with kernel := k₂ })) := by
  unfold getSemaphore at h
  rw [get_bind] at h
  obtain ⟨⟨⟩,s₁,hd,h⟩ := bind_ok.mp h
  obtain ⟨k,hk,rfl⟩ := mutexDown_ok.mp hd
  rw [get_bind] at h
  refine ⟨k,hk,?_⟩
  cases hf : k.findSemaphore name with
  | some i =>
    simp only [hf] at h
    cases h
    exact Or.inl ⟨i,rfl,rfl,rfl⟩
  | none =>
    simp only [hf] at h
    obtain ⟨r',s₂,hc,h⟩ := bind_ok.mp h
    obtain ⟨⟨⟩,s₃,hu,h⟩ := bind_ok.mp h
    obtain ⟨k₂,hk₂,rfl⟩ := mutexUp_ok.mp hu
    cases h
    exact Or.inr ⟨rfl,s₂,k₂,hc,hk₂,rfl⟩

theorem releaseSemaphoreBody_ok (h : releaseSemaphoreBody semaphore t s = .ok (b,s')) :
    (¬ (s.kernel.isValidSemaphore semaphore ∧ (s.kernel.semaphores semaphore).creator = t) ∧
        b = false ∧ s' = s) ∨
      (s.kernel.isValidSemaphore semaphore ∧ (s.kernel.semaphores semaphore).creator = t ∧
        b = true ∧ ∃ b' s₁ k,
          releaseMutex t.pid (s.kernel.semaphores semaphore).mutex t.thread s = .ok (b',s₁) ∧
          unlockAllSemaphore semaphore maxBlocked (s₁.kernel.disownSemaphore semaphore) = some k ∧
          s' = { s₁ with kernel := k }) := by
  unfold releaseSemaphoreBody at h
  rw [get_bind] at h
  split at h
  · rename_i hc
    obtain ⟨b',s₁,hr,h⟩ := bind_ok.mp h
    rw [modify_bind] at h
    obtain ⟨⟨⟩,s₂,hl,h⟩ := bind_ok.mp h
    obtain ⟨k,hk,rfl⟩ := piece_ok.mp hl
    cases h
    exact Or.inr ⟨hc.1,hc.2,rfl,b',s₁,k,hr,hk,rfl⟩
  · rename_i hc
    cases h
    exact Or.inl ⟨hc,rfl,rfl⟩

theorem releaseSemaphore_ok (h : releaseSemaphore pid semaphore thread s = .ok (b,s')) :
    ∃ k s₁ k₂, s.kernel.mutexDown s.semaphoreMutex ⟨pid,thread⟩ = some (.returned,k) ∧
      releaseSemaphoreBody semaphore ⟨pid,thread⟩ { s with kernel := k } = .ok (b,s₁) ∧
      s₁.kernel.mutexUp s.semaphoreMutex ⟨pid,thread⟩ = some k₂ ∧ s' = { s₁ with kernel := k₂ } := by
  unfold releaseSemaphore at h
  rw [get_bind] at h
  obtain ⟨⟨⟩,s₁,hd,h⟩ := bind_ok.mp h
  obtain ⟨k,hk,rfl⟩ := mutexDown_ok.mp hd
  obtain ⟨b',s₂,hb,h⟩ := bind_ok.mp h
  obtain ⟨⟨⟩,s₃,hu,h⟩ := bind_ok.mp h
  obtain ⟨k₂,hk₂,rfl⟩ := mutexUp_ok.mp hu
  cases h
  exact ⟨k,s₂,k₂,hk,hb,hk₂,rfl⟩

/-- A free mutex is taken at once, and one that nobody has created is passed over. -/
theorem mutexDown_free (hv : s.kernel.isValidMutex mutex)
    (hf : (s.kernel.mutexes mutex).value ≠ locked) :
    mutexDown mutex t s = .ok ((),{ s with kernel := s.kernel.take mutex t }) :=
  mutexDown_ok.mpr ⟨_,mutexDown_take hv hf,rfl⟩

theorem mutexUp_free (hk : s.kernel = Kernel.take k mutex t) (hv : k.isValidMutex mutex)
    (hp : (k.mutexes mutex).list.pop = none) :
    mutexUp mutex t s = .ok ((),{ s with kernel := k.cycle mutex t }) :=
  mutexUp_ok.mpr ⟨_,by rw [hk]; exact mutexUp_take hv hp,rfl⟩

/-- With its mutex free the heap answers, and the mutex is free again. -/
theorem allocatePages_free (hv : s.kernel.isValidMutex s.buddyMutex)
    (hf : (s.kernel.mutexes s.buddyMutex).value ≠ locked)
    (hp : (s.kernel.mutexes s.buddyMutex).list.pop = none) (hh : BuddyAllocator.HeapOk s.heap)
    {q : ℕ} (hq : 1 ≤ q) (hle : q ≤ BuddyAllocator.pageQuantity) :
    ∃ a h, allocatePages q s = .ok (a,{ s with
        kernel := s.kernel.cycle s.buddyMutex s.kernel.caller
        heap := h }) ∧
      BuddyAllocator.HeapOk h := by
  obtain ⟨h,he,-,hok⟩ := BuddyAllocator.allocatePages_spec hh hq hle
  have hn : ¬ ((q : ℤ) = 0 ∨ (q : ℤ) > BuddyAllocator.pageQuantity) := by omega
  unfold BuddyAllocator.allocatePages at he
  rw [if_neg hn] at he
  refine ⟨BuddyAllocator.searchAddress (BuddyAllocator.chosen q s.heap),h,?_,hok⟩
  unfold allocatePages
  rw [if_neg hn,get_bind,bind_of_ok (mutexDown_free hv hf),bind_of_ok (partly_ok.mpr (by rw [he]; rfl)),
    bind_of_ok (mutexUp_free rfl hv hp)]
  rfl

end Registry
end ComplexOS
