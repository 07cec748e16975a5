import ComplexOS.Kernel.Reachable

/-! # Which calls give their locks back

A call of `getMutex` or of `getSemaphore` keeps the lock that it has taken when the name
is found. What happens to the first three slots is all that there is to know.
-/
namespace ComplexOS
open Kernel Call

namespace Registry
variable {s s' : Registry} {name : List UInt8} {pid thread i m : ℤ} {t : ThreadId} {r : Option ℤ}
  {k : Kernel} {α : Type}

def Balances (x : KernelCall α) (s : Registry) : Prop := ∃ a s', x s = .ok (a,s') ∧ s'.Unlocked

theorem balances_of_ok {x : KernelCall α} {a : α} (h : x s = .ok (a,s')) :
    Balances x s ↔ s'.Unlocked := by
  constructor
  · rintro ⟨b,s₁,hx,hu⟩
    rw [h] at hx
    cases hx
    exact hu
  · exact fun hu => ⟨a,s',h,hu⟩

theorem not_balances_of_error {x : KernelCall α} {e : Stop} (h : x s = .error e) :
    ¬ Balances x s := by
  rintro ⟨b,s₁,hx,-⟩
  rw [h] at hx
  cases hx

namespace Sane

theorem lock_iff (h : s.Sane) : s.KernelLock m ↔ 0 ≤ m ∧ m ≤ 2 := by
  unfold KernelLock
  rw [h.buddyMutex,h.semaphoreMutex,h.channelMutex]
  unfold adminMutex
  omega

theorem unlocked_iff (h : s.Sane) :
    s.Unlocked ↔ ∀ m, 0 ≤ m → m ≤ 2 → (s.kernel.mutexes m).value = unlocked :=
  ⟨fun hu m h0 h2 => hu m (h.lock_iff.mpr ⟨h0,h2⟩),
    fun hu m hm => hu m (h.lock_iff.mp hm).1 (h.lock_iff.mp hm).2⟩

theorem pop (h : s.Sane) (h0 : 0 ≤ m) (h2 : m ≤ 2) (hv : (s.kernel.mutexes m).value = unlocked) :
    (s.kernel.mutexes m).list.pop = none := by
  have hok := h.sound m ⟨h0,h2.trans_lt (by decide)⟩
  exact hok.counted.pop_none.mpr (hok.idle (by rw [hv]; decide))

end Sane

structure SameLocks (s s' : Registry) : Prop where
  semaphoreMutex : s'.semaphoreMutex = s.semaphoreMutex
  buddyMutex : s'.buddyMutex = s.buddyMutex
  channelMutex : s'.channelMutex = s.channelMutex

/-- What a creation does to the first slots: it may leave `adminMutex` locked. -/
structure Creates (s : Registry) (leaks : Prop) (s' : Registry) : Prop extends SameLocks s s' where
  guarded : s'.kernel.Guarded
  others : ∀ i, 0 < i → i ≤ 2 → s'.kernel.mutexes i = s.kernel.mutexes i
  list : (s'.kernel.mutexes adminMutex).list = (s.kernel.mutexes adminMutex).list
  leaked : leaks → (s'.kernel.mutexes adminMutex).value = locked
  kept : ¬ leaks → (s'.kernel.mutexes adminMutex).value = unlocked

theorem createMutex_low (hg : k.Guarded) {k' : Kernel}
    (hk : k.createMutex pid name thread = (r,k')) (h0 : 0 ≤ i) (h2 : i ≤ 2) :
    k'.mutexes i = k.mutexes i := by
  obtain ⟨-,-,rfl⟩ | ⟨-,-,-,hm,-⟩ := createMutex_cases hk
  · rfl
  · rw [hm,Function.update_of_ne (hg.first_ne h0 h2).symm]

theorem getMutex_creates (hg : s.kernel.Guarded)
    (hf : (s.kernel.mutexes adminMutex).value = unlocked)
    (hp : (s.kernel.mutexes adminMutex).list.pop = none) :
    ∃ r s', getMutex name pid thread s = .ok (r,s') ∧
      Creates s (s.kernel.findMutex name ≠ none) s' := by
  have hopen : (s.kernel.mutexes adminMutex).value ≠ locked := by
    rw [hf]
    decide
  cases hi : s.kernel.findMutex name with
  | some i =>
    refine ⟨_,_,getMutex_hit hg hopen hi,⟨rfl,rfl,rfl⟩,hg.lockSlot,fun i h0 _ => ?_,lockSlot_list,
      fun _ => ?_,fun hx => absurd (by simp) hx⟩
    · exact lockSlot_of_ne (ne_of_gt h0)
    · show ((s.kernel.lockSlot adminMutex locked _).mutexes adminMutex).value = _
      rw [lockSlot_self]
  | none =>
    obtain ⟨r,k,hk⟩ : ∃ r k, s.kernel.createMutex pid name thread = (r,k) := ⟨_,_,rfl⟩
    refine ⟨_,_,getMutex_miss hg hopen hp hi hk,⟨rfl,rfl,rfl⟩,(hg.createMutex hk).lockSlot,
      fun i h0 h2 => ?_,?_,fun hx => absurd rfl hx,fun _ => ?_⟩
    · exact (lockSlot_of_ne (ne_of_gt h0)).trans (createMutex_low hg hk h0.le h2)
    · exact lockSlot_list.trans (congrArg Mutex.list (createMutex_low hg hk le_rfl (by decide)))
    · show ((k.lockSlot adminMutex unlocked _).mutexes adminMutex).value = _
      rw [lockSlot_self]

def HasRoom (s : Registry) (name : List UInt8) : Prop :=
  s.usedSemaphores < maxSemaphores ∧ name.length < maxName

theorem createSemaphore_creates (hg : s.kernel.Guarded)
    (hf : (s.kernel.mutexes adminMutex).value = unlocked)
    (hp : (s.kernel.mutexes adminMutex).list.pop = none) :
    ∃ r s', createSemaphore pid name thread s = .ok (r,s') ∧
      Creates s (s.HasRoom name ∧ s.kernel.findMutex name ≠ none) s' := by
  by_cases hroom : s.HasRoom name
  · obtain ⟨hu,hn⟩ := id hroom
    obtain ⟨m,s₁,hget,hc⟩ : ∃ m s₁, getMutex name pid thread (claimSemaphore pid name thread s) =
        .ok (m,s₁) ∧ Creates (claimSemaphore pid name thread s) (s.kernel.findMutex name ≠ none) s₁ :=
      getMutex_creates (hg.congr (fun _ _ _ => rfl) rfl) hf hp
    have hleaks : ∀ s', s'.kernel.mutexes = s₁.kernel.mutexes → SameLocks s s' →
        s'.kernel.Guarded → Creates s (s.HasRoom name ∧ s.kernel.findMutex name ≠ none) s' := by
      intro s' hm hsame hg'
      refine ⟨hsame,hg',fun i h0 h2 => ?_,?_,fun hx => ?_,fun hx => ?_⟩
      · rw [hm]
        exact hc.others i h0 h2
      · rw [hm]
        exact hc.list
      · rw [hm]
        exact hc.leaked hx.2
      · rw [hm]
        exact hc.kept (fun hy => hx ⟨hroom,hy⟩)
    have hsame : SameLocks s s₁ := ⟨hc.semaphoreMutex,hc.buddyMutex,hc.channelMutex⟩
    unfold createSemaphore
    rw [get_bind,if_pos ⟨hu,hn⟩,modify_bind,bind_of_ok hget]
    cases m with
    | none => exact ⟨_,_,rfl,hleaks s₁ rfl hsame hc.guarded⟩
    | some m =>
      exact ⟨_,_,rfl,hleaks _ rfl ⟨hsame.1,hsame.2,hsame.3⟩ (hc.guarded.congr (fun _ _ _ => rfl) rfl)⟩
  · refine ⟨_,_,createSemaphore_none hroom,⟨rfl,rfl,rfl⟩,hg,fun _ _ _ => rfl,rfl,
      fun hx => absurd hx.1 hroom,fun _ => hf⟩

theorem mutexUp_held (hg : k.Guarded) (h0 : 0 ≤ m) (h2 : m ≤ 2)
    (hl : (k.mutexes m).lockProcess = t) (hp : (k.mutexes m).list.pop = none) :
    k.mutexUp m t = some (k.lockSlot m unlocked t) := by
  rw [mutexUp_last (hg.valid h0 h2) hl hp,← hl]
  rfl

theorem getMutex_balances (h : s.Sane) (hu : s.Unlocked) :
    Balances (getMutex name pid thread) s ↔ s.kernel.findMutex name = none := by
  have hlow := h.unlocked_iff.mp hu
  have hadmin := hlow adminMutex (by decide) (by decide)
  obtain ⟨r,s',hget,hc⟩ : ∃ r s', getMutex name pid thread s = .ok (r,s') ∧ _ :=
    getMutex_creates h.guarded hadmin (h.pop (by decide) (by decide) hadmin)
  rw [balances_of_ok hget]
  constructor
  · intro hx
    by_contra hne
    have hl := hc.leaked hne
    rw [hx adminMutex (Or.inl rfl)] at hl
    exact absurd hl (by decide)
  · intro hnone m hm
    have hrange : 0 ≤ m ∧ m ≤ 2 := by
      apply h.lock_iff.mp
      unfold KernelLock at hm ⊢
      rw [hc.buddyMutex,hc.semaphoreMutex,hc.channelMutex] at hm
      exact hm
    by_cases h0 : m = adminMutex
    · rw [h0]
      exact hc.kept (fun hx => hx hnone)
    · rw [hc.others m (lt_of_le_of_ne hrange.1 (Ne.symm h0)) hrange.2]
      exact hlow m hrange.1 hrange.2

theorem getSemaphore_balances (h : s.Sane) (hu : s.Unlocked) :
    Balances (getSemaphore name pid thread) s ↔ s.kernel.findSemaphore name = none ∧
      (s.HasRoom name → s.kernel.findMutex name = none) := by
  have hlow := h.unlocked_iff.mp hu
  have hsem := hlow 1 (by decide) (by decide)
  have hopen : (s.kernel.mutexes 1).value ≠ locked := by
    rw [hsem]
    decide
  cases hi : s.kernel.findSemaphore name with
  | some i =>
    rw [balances_of_ok (getSemaphore_hit h.guarded h.semaphoreMutex hopen hi)]
    refine ⟨fun hx => ?_,fun hx => by cases hx.1⟩
    have hv := hx 1 (Or.inr (Or.inr (Or.inl h.semaphoreMutex.symm)))
    rw [lockSlot_self] at hv
    exact absurd hv (by decide : locked ≠ unlocked)
  | none =>
    have hadmin := hlow adminMutex (by decide) (by decide)
    have hslot : (s.kernel.lockSlot 1 locked ⟨pid,thread⟩).mutexes adminMutex =
        s.kernel.mutexes adminMutex := lockSlot_of_ne (by decide)
    obtain ⟨r,s₁,hcreate,hc⟩ : ∃ r s₁, createSemaphore pid name thread
        { s with kernel := s.kernel.lockSlot 1 locked ⟨pid,thread⟩ } = .ok (r,s₁) ∧
        Creates { s with kernel := s.kernel.lockSlot 1 locked ⟨pid,thread⟩ }
          (s.HasRoom name ∧ (s.kernel.lockSlot 1 locked ⟨pid,thread⟩).findMutex name ≠ none) s₁ :=
      createSemaphore_creates h.guarded.lockSlot (by rw [hslot]; exact hadmin)
        (by rw [hslot]; exact h.pop (by decide) (by decide) hadmin)
    have hself : s₁.kernel.mutexes 1 = { s.kernel.mutexes 1 with
        value := locked
        lockProcess := ⟨pid,thread⟩ } := by
      rw [hc.others 1 (by decide) (by decide)]
      exact lockSlot_self
    have hup := mutexUp_held (m := 1) (t := ⟨pid,thread⟩) hc.guarded (by decide) (by decide)
      (by rw [hself]) (by rw [hself]; exact h.pop (by decide) (by decide) hsem)
    have hcall : getSemaphore name pid thread s = .ok (r,{ s₁ with
        kernel := s₁.kernel.lockSlot 1 unlocked ⟨pid,thread⟩ }) := by
      unfold getSemaphore
      rw [get_bind,bind_of_ok (semaphoreMutex_down h.guarded h.semaphoreMutex hopen),get_bind]
      simp only [show (s.kernel.lockSlot 1 locked ⟨pid,thread⟩).findSemaphore name = none from hi]
      rw [bind_of_ok hcreate,bind_of_ok (a := ()) (mutexUp_ok.mpr
        ⟨_,(congrArg (fun m => s₁.kernel.mutexUp m _) h.semaphoreMutex).trans hup,rfl⟩)]
      rfl
    have hadmin' : (s₁.kernel.lockSlot 1 unlocked ⟨pid,thread⟩).mutexes adminMutex =
        s₁.kernel.mutexes adminMutex := lockSlot_of_ne (by decide)
    rw [balances_of_ok hcall]
    constructor
    · intro hx
      refine ⟨rfl,fun hroom => ?_⟩
      by_contra hne
      have hv := hx adminMutex (Or.inl rfl)
      rw [hadmin'] at hv
      rw [hc.leaked ⟨hroom,by rw [findMutex_lockSlot]; exact hne⟩] at hv
      exact absurd hv (by decide)
    · rintro ⟨-,hnone⟩ m hm
      have hrange : 0 ≤ m ∧ m ≤ 2 := by
        apply h.lock_iff.mp
        unfold KernelLock at hm ⊢
        rw [← hc.buddyMutex,← hc.semaphoreMutex,← hc.channelMutex]
        exact hm
      show ((s₁.kernel.lockSlot 1 unlocked _).mutexes m).value = unlocked
      rcases (by omega : m = 0 ∨ m = 1 ∨ m = 2) with rfl | rfl | rfl
      · rw [show (0 : ℤ) = adminMutex from rfl,hadmin']
        refine hc.kept (fun hx => ?_)
        rw [findMutex_lockSlot] at hx
        exact hx.2 (hnone hx.1)
      · rw [lockSlot_self]
      · rw [lockSlot_of_ne (by decide),hc.others 2 (by decide) le_rfl]
        exact (congrArg Mutex.value (lockSlot_of_ne (by decide))).trans (hlow 2 (by decide) le_rfl)

end Registry
end ComplexOS
