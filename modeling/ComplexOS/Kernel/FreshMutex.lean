import ComplexOS.Kernel.MutexTableRuns

/-! # What a new mutex starts with

A slot is cleared at boot only. Its next owner gets what the last one left there, so a
creation is clean as far as the releases were. The slot to be handed out next is looked
up early, and `setupMutexSystem` does so before it marks the mutex it keeps for itself.
-/
namespace ComplexOS

namespace Kernel
variable {k k' : Kernel} {n : ℕ}

structure Cleared (n : ℕ) (k k' : Kernel) : Prop where
  slots : ∀ i, k'.mutexes i = if 0 ≤ i ∧ i < n then (k.mutexes i).clear else k.mutexes i
  first : k'.firstAvailableMutex = if n = 0 then k.firstAvailableMutex else 0
  usedMutexes : k'.usedMutexes = k.usedMutexes

theorem getNextMutexAvailable_eq {i : ℕ} (hi : (i : ℤ) < maxMutexes)
    (hfree : (k.mutexes i).creator.pid = notUsed)
    (h : ∀ j < i, (k.mutexes j).creator.pid ≠ notUsed) : k.getNextMutexAvailable = i := by
  have hf : SlotTable.firstFree (fun m : Mutex => m.creator.pid ≠ notUsed) maxMutexes.toNat
      (fun j : ℕ => k.mutexes j) = some i :=
    SlotTable.firstFree_eq_some (by omega) (by simpa using hfree) h
  unfold getNextMutexAvailable
  rw [hf]
  rfl

theorem Cleared.step (h : Cleared n k k') (hf : 0 < k.firstAvailableMutex)
    (hn : (n : ℤ) < maxMutexes) : Cleared (n+1) k (k'.clearMutex n) := by
  have hslot : (k'.clearMutex n).mutexes = Function.update k'.mutexes n (k.mutexes n).clear := by
    have hself : k'.mutexes n = k.mutexes n := by
      rw [h.slots,if_neg]
      omega
    unfold clearMutex
    rw [if_pos hn,hself]
    simp only
    split <;> rfl
  have hslots : ∀ i, (k'.clearMutex n).mutexes i =
      if 0 ≤ i ∧ i < (n+1 : ℕ) then (k.mutexes i).clear else k.mutexes i := by
    intro i
    rw [hslot]
    by_cases hi : i = n
    · subst hi
      rw [Function.update_self,if_pos]
      omega
    · rw [Function.update_of_ne hi,h.slots]
      refine if_congr ?_ rfl rfl
      omega
  refine ⟨hslots,?_,?_⟩
  · rw [if_neg (Nat.succ_ne_zero n)]
    by_cases h0 : n = 0
    · subst h0
      have hlt : ((0 : ℕ) : ℤ) < k'.firstAvailableMutex := by
        rw [h.first,if_pos rfl]
        exact hf
      unfold clearMutex
      rw [if_pos hn]
      simp only
      split
      · rfl
      · rename_i hx
        exact absurd hlt hx
    · have hge : ¬ (n : ℤ) < k'.firstAvailableMutex := by
        rw [h.first,if_neg h0]
        omega
      have hzero := hslots (0 : ℕ)
      rw [if_pos (by omega)] at hzero
      have hnext := getNextMutexAvailable_eq (k := k'.clearMutex n) (i := 0) (by decide)
        (by rw [hzero]; rfl) (fun j hj => absurd hj (Nat.not_lt_zero j))
      unfold clearMutex at hnext ⊢
      rw [if_pos hn] at hnext ⊢
      simp only at hnext ⊢
      split at hnext
      · rename_i hx
        exact absurd hx hge
      · rename_i hx
        rw [if_neg hx]
        exact hnext
  · unfold clearMutex
    rw [if_pos hn]
    simp only
    split <;> exact h.usedMutexes

theorem cleared_foldl (hf : 0 < k.firstAvailableMutex) (hn : (n : ℤ) ≤ maxMutexes) :
    Cleared n k ((List.range n).foldl (fun k (i : ℕ) => k.clearMutex i) k) := by
  induction n with
  | zero =>
    refine ⟨fun i => ?_,rfl,rfl⟩
    rw [if_neg]
    · rfl
    · omega
  | succ n ih =>
    rw [List.range_succ,List.foldl_append,List.foldl_cons,List.foldl_nil]
    exact (ih (by omega)).step hf (by omega)

theorem setupMutexSystem_spec (hf : 0 < k.firstAvailableMutex) :
    (∀ i, InMutexes i → k.setupMutexSystem.mutexes i =
      if i = adminMutex then { (k.mutexes i).clear with
        creator := { (k.mutexes i).creator with pid := 0 } }
      else (k.mutexes i).clear) ∧
    k.setupMutexSystem.firstAvailableMutex = adminMutex ∧
    k.setupMutexSystem.usedMutexes = k.usedMutexes := by
  have h := cleared_foldl (k := k) (n := maxMutexes.toNat) hf (Int.toNat_of_nonneg (by decide)).le
  unfold setupMutexSystem
  generalize (List.range maxMutexes.toNat).foldl (fun k (i : ℕ) => k.clearMutex i) k = k' at h ⊢
  have hself : ∀ j, InMutexes j → k'.mutexes j = (k.mutexes j).clear := by
    intro j hj
    rw [h.slots,if_pos ⟨hj.1,hj.2⟩]
  have hpos : ¬ maxMutexes.toNat = 0 := by decide
  refine ⟨fun i hi => ?_,h.first.trans (if_neg hpos),h.usedMutexes⟩
  show Function.update k'.mutexes adminMutex _ i = _
  by_cases ha : i = adminMutex
  · subst ha
    rw [Function.update_self,hself _ hi,if_pos rfl]
    rfl
  · rw [Function.update_of_ne ha,hself _ hi,if_neg ha]

theorem clearMutex_rest (i : ℤ) : (k.clearMutex i).semaphores = k.semaphores ∧
    (k.clearMutex i).processes = k.processes ∧ (k.clearMutex i).current = k.current := by
  unfold clearMutex
  split
  · simp only
    split <;> exact ⟨rfl,rfl,rfl⟩
  · exact ⟨rfl,rfl,rfl⟩

theorem setupMutexSystem_rest : k.setupMutexSystem.semaphores = k.semaphores ∧
    k.setupMutexSystem.processes = k.processes ∧ k.setupMutexSystem.current = k.current := by
  have hfold : ∀ (is : List ℕ) (k : Kernel),
      (is.foldl (fun k (i : ℕ) => k.clearMutex i) k).semaphores = k.semaphores ∧
      (is.foldl (fun k (i : ℕ) => k.clearMutex i) k).processes = k.processes ∧
      (is.foldl (fun k (i : ℕ) => k.clearMutex i) k).current = k.current := by
    intro is
    induction is with
    | nil => exact fun _ => ⟨rfl,rfl,rfl⟩
    | cons i is ih =>
      intro k
      rw [List.foldl_cons]
      obtain ⟨hs,hp,hc⟩ := ih (k.clearMutex i)
      obtain ⟨hs',hp',hc'⟩ := clearMutex_rest (k := k) i
      exact ⟨hs.trans hs',hp.trans hp',hc.trans hc'⟩
  unfold setupMutexSystem
  generalize List.range maxMutexes.toNat = is
  exact hfold is k

/-- A creation, with the next slot to be handed out. -/
theorem createMutex_next {i j : ℕ} {p t : ℤ} {n : List UInt8}
    (hroom : k.usedMutexes < maxMutexes) (hn : n.length < maxName)
    (hfirst : k.firstAvailableMutex = i) (hj : (j : ℤ) < maxMutexes) (hij : j ≠ i)
    (hfree : (k.mutexes j).creator.pid = notUsed)
    (hused : ∀ l : ℕ, l < j → l ≠ i → (k.mutexes l).creator.pid ≠ notUsed) (hp : p ≠ notUsed) :
    k.createMutex p n t = (some (i : ℤ),{ k with
      mutexes := Function.update k.mutexes i (named (k.mutexes i) n ⟨p,t⟩)
      usedMutexes := k.usedMutexes+1
      firstAvailableMutex := j }) := by
  obtain ⟨r,k',hk⟩ : ∃ r k', k.createMutex p n t = (r,k') := ⟨_,_,rfl⟩
  obtain ⟨-,hx,-⟩ | ⟨rfl,-,-,hm,hu,hf,hs,hpr,hc⟩ := createMutex_cases hk
  · exact absurd ⟨hroom,hn⟩ hx
  rw [hfirst] at hm hk
  rw [hk]
  have hnext : k'.firstAvailableMutex = j := by
    rw [hf]
    apply getNextMutexAvailable_eq hj
    · rw [hm,Function.update_of_ne (by omega)]
      exact hfree
    · intro l hl
      rw [hm]
      by_cases he : l = i
      · rw [he,Function.update_self]
        exact hp
      · rw [Function.update_of_ne (by omega)]
        exact hused l hl he
  cases k'
  simp only at hm hu hs hpr hc hnext
  subst hm hu hs hpr hc hnext
  rfl

end Kernel

namespace MutexTable
open Kernel Runs
variable {s s' : MutexTable} {l : TableStep} {ls : List TableStep} {k k' : Kernel}

def start (k : Kernel) : MutexTable :=
  ⟨setupMutexSystem { k with firstAvailableMutex := 1, usedMutexes := 1 },{adminMutex}⟩

/-- No mutex is released while it is LOCKED, and only mutexes that were created are
taken: the exchange makes the slot behind a taken one look valid, too. -/
def Calm (s : MutexTable) : TableStep → Prop
  | .releaseMutex mutex t => s.kernel.isValidMutex mutex → (s.kernel.mutexes mutex).creator = t →
      (s.kernel.mutexes mutex).value ≠ locked
  | .mutexDown mutex _ => s.kernel.isValidMutex mutex → mutex ∈ s.live
  | _ => True

structure Tidy (s : MutexTable) : Prop where
  sound : s.Sound
  free : ∀ i, InMutexes i → i ∉ s.live →
    (s.kernel.mutexes i).value = unlocked ∧ (s.kernel.mutexes i).lockProcess.pid = notUsed
  claimed : ∀ i ∈ s.live, InMutexes i → (s.kernel.mutexes i).creator.pid ≠ notUsed
  next : s.kernel.firstAvailableMutex = fullList ∨ InMutexes s.kernel.firstAvailableMutex ∧
    (s.kernel.firstAvailableMutex ∉ s.live ∨ s.kernel.firstAvailableMutex = adminMutex)

structure Fresh (s : MutexTable) (name : List UInt8) (mutex : ℤ) (k' : Kernel) : Prop where
  slot : InMutexes mutex
  unused : mutex ∉ s.live
  reserved : mutex ≠ adminMutex
  value : (k'.mutexes mutex).value = unlocked
  holder : (k'.mutexes mutex).lockProcess.pid = notUsed
  waiters : (k'.mutexes mutex).list.Holds ∅
  name : strcmp (k'.mutexes mutex).name name = 0
  others : ∀ i, i ≠ mutex → k'.mutexes i = s.kernel.mutexes i
  /-- Any thread can take it at once. -/
  taken : ∀ t, ∃ k'', k'.mutexDown mutex t = some (.returned,k'') ∧
    (k''.mutexes mutex).value = locked ∧ (k''.mutexes mutex).lockProcess = t

theorem start_spec : (∀ i, InMutexes i → (start k).kernel.mutexes i =
      if i = adminMutex then { (k.mutexes i).clear with
        creator := { (k.mutexes i).creator with pid := 0 } }
      else (k.mutexes i).clear) ∧
    (start k).kernel.firstAvailableMutex = adminMutex ∧ (start k).kernel.usedMutexes = 1 :=
  setupMutexSystem_spec (k := { k with firstAvailableMutex := 1, usedMutexes := 1 }) Int.one_pos

theorem start_tidy : (start k).Tidy := by
  obtain ⟨hslots,hfirst,-⟩ := start_spec (k := k)
  refine ⟨fun i hi => ?_,fun i hi hl => ?_,fun i hl hi => ?_,Or.inr ⟨?_,Or.inr hfirst⟩⟩
  · rw [hslots i hi]
    split
    · exact (Mutex.clear_ok _).congr rfl rfl
    · exact Mutex.clear_ok _
  · have ha : i ≠ adminMutex := fun he => hl (Finset.mem_singleton.mpr he)
    rw [hslots i hi,if_neg ha]
    exact ⟨rfl,rfl⟩
  · rw [hslots i hi,if_pos (Finset.mem_singleton.mp hl)]
    show (0 : ℤ) ≠ notUsed
    decide
  · rw [hfirst]
    decide

/-- A step that leaves the live mutexes and the cached slot alone. -/
theorem Tidy.frame (h : s.Tidy) (hsound : s'.Sound) (hlive : s'.live = s.live)
    (hfirst : s'.kernel.firstAvailableMutex = s.kernel.firstAvailableMutex)
    (hfree : ∀ i, InMutexes i → i ∉ s.live →
      (s'.kernel.mutexes i).value = unlocked ∧ (s'.kernel.mutexes i).lockProcess.pid = notUsed)
    (hclaimed : ∀ i, (s.kernel.mutexes i).creator.pid ≠ notUsed →
      (s'.kernel.mutexes i).creator.pid ≠ notUsed) : s'.Tidy := by
  refine ⟨hsound,?_,?_,?_⟩
  · rw [hlive]
    exact hfree
  · rw [hlive]
    intro i hl hi
    exact hclaimed i (h.claimed i hl hi)
  · rw [hlive,hfirst]
    exact h.next

/-- Only one slot has changed, and it keeps its creator. -/
theorem Tidy.update (h : s.Tidy) (hsound : s'.Sound) (hlive : s'.live = s.live)
    (hfirst : s'.kernel.firstAvailableMutex = s.kernel.firstAvailableMutex) {mutex : ℤ} {m : Mutex}
    (hm : s'.kernel.mutexes = Function.update s.kernel.mutexes mutex m)
    (hfree : InMutexes mutex → mutex ∉ s.live → m.value = unlocked ∧ m.lockProcess.pid = notUsed)
    (hcreator : m.creator = (s.kernel.mutexes mutex).creator) : s'.Tidy := by
  apply h.frame hsound hlive hfirst
  · intro i hi hl
    rw [hm]
    by_cases he : i = mutex
    · subst he
      rw [Function.update_self]
      exact hfree hi hl
    · rw [Function.update_of_ne he]
      exact h.free i hi hl
  · intro i hc
    rw [hm]
    by_cases he : i = mutex
    · subst he
      rw [Function.update_self,hcreator]
      exact hc
    · rw [Function.update_of_ne he]
      exact hc

/-- Nobody waits at a slot that is not live. -/
theorem Tidy.pop_free (h : s.Tidy) {i : ℤ} (hi : InMutexes i) (hl : i ∉ s.live) :
    (s.kernel.mutexes i).list.pop = none := by
  have hv := (h.free i hi hl).1
  exact ((h.sound i hi).counted.pop_none).mpr ((h.sound i hi).idle (by rw [hv]; decide))

theorem step_tidy (h : s.Tidy) (hc : Calm s l) (hs : s.step l = some s') : s'.Tidy := by
  have hsound := step_sound h.sound hs
  cases l with
  | createMutex pid name thread =>
    obtain ⟨⟨hp,-⟩,hs⟩ := Option.ite_none_right_eq_some.mp hs
    obtain ⟨r,k,hk⟩ : ∃ r k, s.kernel.createMutex pid name thread = (r,k) := ⟨_,_,rfl⟩
    simp only [hk,Option.some.injEq] at hs
    subst hs
    rcases createMutex_cases hk with ⟨rfl,-,rfl⟩ | ⟨rfl,-,-,hm,-,hfirst,-,-,-⟩
    · exact ⟨hsound,h.free,h.claimed,h.next⟩
    · have hclaimed : ∀ i ∈ insert s.kernel.firstAvailableMutex s.live, InMutexes i →
          (k.mutexes i).creator.pid ≠ notUsed := by
        intro i hl hi
        rw [hm]
        by_cases he : i = s.kernel.firstAvailableMutex
        · rw [he,Function.update_self]
          exact hp
        · rw [Function.update_of_ne he]
          exact h.claimed i ((Finset.mem_insert.mp hl).resolve_left he) hi
      refine ⟨hsound,fun i hi hl => ?_,hclaimed,?_⟩
      · obtain ⟨hne,hl⟩ := not_or.mp (fun hx => hl (Finset.mem_insert.mpr hx))
        show (k.mutexes i).value = _ ∧ (k.mutexes i).lockProcess.pid = _
        rw [hm,Function.update_of_ne hne]
        exact h.free i hi hl
      · show k.firstAvailableMutex = _ ∨ InMutexes k.firstAvailableMutex ∧ _
        rw [hfirst]
        rcases getNextMutexAvailable_spec (k := k) with ⟨hfull,-⟩ | ⟨h0,h1,hfree⟩
        · exact Or.inl hfull
        · exact Or.inr ⟨⟨h0,h1⟩,Or.inl (fun hl => hclaimed _ hl ⟨h0,h1⟩ hfree)⟩
  | mutexDown mutex t =>
    obtain ⟨hu,hs⟩ := Option.ite_none_right_eq_some.mp hs
    obtain ⟨⟨o,k⟩,hk,rfl⟩ := Option.map_eq_some_iff.mp hs
    rcases mutexDown_cases hk with ⟨-,-,rfl⟩ | ⟨hv,hr,m,ht,hm⟩
    · exact h
    · have hmem := hc hv
      apply h.frame hsound rfl hr.firstAvailableMutex
      · intro i hi hl
        have he : i ≠ mutex := fun he => hl (he ▸ hmem)
        obtain ⟨-,hval,-,hlp,-⟩ := marked_of_ne (k := s.kernel) (m := m) he
        show (k.mutexes i).value = _ ∧ (k.mutexes i).lockProcess.pid = _
        rw [hm,hval,hlp]
        exact h.free i hi hl
      · intro i hx
        show (k.mutexes i).creator.pid ≠ _
        rw [hm]
        by_cases he : i = mutex
        · subst he
          rw [marked_self]
          cases ht <;> exact hx
        · obtain ⟨-,-,-,-,hcr | ⟨-,hcr⟩⟩ := marked_of_ne (k := s.kernel) (m := m) he
          · rw [hcr]
            exact hx
          · rw [hcr]
            exact (by decide : (0 : ℤ) ≠ notUsed)
  | mutexUp mutex t =>
    obtain ⟨k,hk,rfl⟩ := Option.map_eq_some_iff.mp hs
    rcases mutexUp_cases hk with ⟨-,rfl⟩ | ⟨-,-,hr,m,hg,hm⟩
    · exact h
    · apply h.update hsound rfl hr.firstAvailableMutex hm
      · intro hi hl
        cases hg with
        | free _ => exact ⟨rfl,(h.free _ hi hl).2⟩
        | handed hp =>
          rw [h.pop_free hi hl] at hp
          cases hp
      · cases hg <;> rfl
  | releaseMutex mutex t =>
    obtain ⟨⟨b,k⟩,hk,rfl⟩ := Option.map_eq_some_iff.mp hs
    rcases releaseMutexBody_cases hk with ⟨rfl,-,rfl⟩ | ⟨rfl,hv,hcr,hr,m,hm,-,-,hval,-,-,hidle⟩
    · exact h
    · have hin : InMutexes mutex := ⟨hv.1,hv.2.1⟩
      have hopen := hc hv hcr
      have hq : ¬ (s.kernel.mutexes mutex).list.blockedQuantity > 0 := by
        rw [(h.sound mutex hin).idle hopen]
        decide
      refine ⟨hsound,fun i hi hl => ?_,fun i hl hi => ?_,?_⟩
      · show (k.mutexes i).value = _ ∧ (k.mutexes i).lockProcess.pid = _
        rw [hm]
        by_cases he : i = mutex
        · subst he
          rw [Function.update_self,hval]
          exact ⟨(h.sound i hin).open_value hopen,(hidle hq).1⟩
        · rw [Function.update_of_ne he]
          exact h.free i hi (fun hx => hl (Finset.mem_erase.mpr ⟨he,hx⟩))
      · obtain ⟨he,hl⟩ := Finset.mem_erase.mp hl
        show (k.mutexes i).creator.pid ≠ _
        rw [hm,Function.update_of_ne he]
        exact h.claimed i hl hi
      · show k.firstAvailableMutex = _ ∨ _
        rw [hr.firstAvailableMutex]
        refine h.next.imp_right (And.imp_right (Or.imp_left ?_))
        exact fun hx hl => hx (Finset.mem_of_mem_erase hl)
  | unlockProcess mutex =>
    obtain ⟨hi,hs⟩ := Option.ite_none_right_eq_some.mp hs
    obtain ⟨⟨b,k⟩,hk,rfl⟩ := Option.map_eq_some_iff.mp hs
    rcases unlockProcess_cases hk with ⟨-,-,rfl⟩ | ⟨-,hr,w,l,hp,hm⟩
    · exact h
    · apply h.update hsound rfl hr.firstAvailableMutex hm
      · intro hi hl
        rw [h.pop_free hi hl] at hp
        cases hp
      · rfl
  | removeBlocked v mutex j =>
    obtain ⟨⟨hi,hj⟩,hs⟩ := Option.ite_none_right_eq_some.mp hs
    obtain ⟨k,hk,rfl⟩ := Option.map_eq_some_iff.mp hs
    rcases removeBlockedFromMutex_cases hk with ⟨-,rfl⟩ | ⟨hcov,hr,hm⟩
    · exact h
    · apply h.update hsound rfl hr.firstAvailableMutex hm
      · intro hi hl
        exact h.free _ hi hl
      · rfl
  | other k =>
    cases hs
    exact ⟨hsound,h.free,h.claimed,h.next⟩

/-- After releases of open mutexes only, a creation is clean exactly when the cached slot
is one, and not the first, and the name left there ends where the new one does. -/
theorem createMutex_fresh (hr : run step (start k) ls = some s) (hc : Along step Calm (start k) ls)
    {pid thread mutex : ℤ} {name : List UInt8} (hn : 0 ∉ name) (hp : pid ≠ notUsed)
    (hm : s.kernel.createMutex pid name thread = (some mutex,k')) :
    Fresh s name mutex k' ↔ s.kernel.firstAvailableMutex ≠ fullList ∧
      s.kernel.firstAvailableMutex ≠ adminMutex ∧
      (s.kernel.mutexes s.kernel.firstAvailableMutex).name name.length = 0 := by
  have h : s.Tidy := (Along.invariant (D := fun _ _ => True) (fun _ _ _ => step_tidy)
    (fun _ _ _ _ => trivial) start_tidy hc).2 s hr
  obtain ⟨hx,-⟩ | ⟨hx,-,-,hslots,-⟩ := createMutex_cases hm
  · cases hx
  obtain rfl : mutex = s.kernel.firstAvailableMutex := Option.some.inj hx
  have hself : k'.mutexes s.kernel.firstAvailableMutex =
      named (s.kernel.mutexes s.kernel.firstAvailableMutex) name ⟨pid,thread⟩ := by
    rw [hslots,Function.update_self]
  have hname : strcmp (k'.mutexes s.kernel.firstAvailableMutex).name name = 0 ↔
      (s.kernel.mutexes s.kernel.firstAvailableMutex).name name.length = 0 := by
    rw [strcmp_eq_zero hn,hself]
    exact spells_copied
  constructor
  · intro hf
    refine ⟨fun he => ?_,hf.reserved,hname.mp hf.name⟩
    have hslot := hf.slot
    rw [he] at hslot
    exact absurd hslot (by decide)
  · rintro ⟨hfull,hadmin,hzero⟩
    obtain ⟨hin,hl⟩ := h.next.resolve_left hfull
    have hl := hl.resolve_right hadmin
    obtain ⟨hval,hlp⟩ := h.free _ hin hl
    have hv : (k'.mutexes s.kernel.firstAvailableMutex).value = unlocked := by
      rw [hself]
      exact hval
    refine ⟨hin,hl,hadmin,hv,?_,?_,hname.mpr hzero,fun i hi => ?_,fun t => ?_⟩
    · rw [hself]
      exact hlp
    · rw [hself]
      exact (h.sound _ hin).holds_empty hval
    · rw [hslots,Function.update_of_ne hi]
    · have hvalid : k'.isValidMutex s.kernel.firstAvailableMutex :=
        ⟨hin.1,hin.2,by rw [hself]; exact hp⟩
      obtain ⟨k'',hd,hslot,-⟩ := mutexDown_free (t := t) hvalid (by rw [hv]; decide)
      exact ⟨k'',hd,by rw [hslot],by rw [hslot]⟩

/-- The first creation takes the slot of `adminMutex`. -/
theorem start_createMutex {pid thread : ℤ} {name : List UInt8} (hp : pid ≠ notUsed)
    (hn : name.length < maxName) :
    (start k).kernel.createMutex pid name thread = (some adminMutex,{ (start k).kernel with
      mutexes := Function.update (start k).kernel.mutexes adminMutex
        (named ((start k).kernel.mutexes adminMutex) name ⟨pid,thread⟩)
      usedMutexes := (start k).kernel.usedMutexes+1
      firstAvailableMutex := 1 }) := by
  obtain ⟨hslots,hfirst,hused⟩ := start_spec (k := k)
  refine createMutex_next (i := 0) (j := 1) ?_ hn hfirst (by decide) (by decide) ?_ ?_ hp
  · rw [hused]
    decide
  · rw [hslots _ (by decide)]
    rfl
  · intro l hl hne
    omega

/-- The second mutex is clean. -/
theorem createMutex_fresh_second : ∃ s k', run step (start Kernel.static) [.createMutex 0 [98] 0] = some s ∧
    s.kernel.createMutex 1 [109] 0 = (some 1,k') ∧ Fresh s [109] 1 k' := by
  obtain ⟨hslots,-,hused⟩ := start_spec (k := Kernel.static)
  obtain ⟨k₁,hk,hm,hfirst,hused₁⟩ : ∃ k₁,
      (start Kernel.static).kernel.createMutex 0 [98] 0 = (some adminMutex,k₁) ∧
      k₁.mutexes = Function.update (start Kernel.static).kernel.mutexes adminMutex
        (named ((start Kernel.static).kernel.mutexes adminMutex) [98] ⟨0,0⟩) ∧
      k₁.firstAvailableMutex = 1 ∧ k₁.usedMutexes = (start Kernel.static).kernel.usedMutexes+1 :=
    ⟨_,start_createMutex (by decide) (by decide),rfl,rfl,rfl⟩
  have hslot : ∀ i : ℤ, i ≠ adminMutex → InMutexes i →
      k₁.mutexes i = (Kernel.static.mutexes i).clear := by
    intro i hne hi
    rw [hm,Function.update_of_ne hne,hslots i hi,if_neg hne]
  have hlow : ∀ l : ℕ, l < 2 → l ≠ 1 → (k₁.mutexes l).creator.pid ≠ notUsed := by
    intro l hl hne
    obtain rfl : l = 0 := by omega
    rw [hm]
    exact (by decide : (0 : ℤ) ≠ notUsed)
  have hk₁ := createMutex_next (k := k₁) (p := 1) (t := 0) (n := [109]) (i := 1) (j := 2)
    (by rw [hused₁,hused]; decide) (by decide) hfirst (by decide) (by decide)
    (by rw [hslot _ (by decide) (by decide)]; rfl) hlow (by decide)
  have hr : run step (start Kernel.static) [.createMutex 0 [98] 0] =
      some ⟨k₁,insert adminMutex (start Kernel.static).live⟩ :=
    run_cons.mpr ⟨_,step_createMutex (by decide) (by decide) hk,rfl⟩
  refine ⟨_,_,hr,hk₁,(createMutex_fresh hr ⟨trivial,fun _ _ => trivial⟩ (by decide) (by decide)
    hk₁).mpr ?_⟩
  rw [hfirst]
  refine ⟨by decide,by decide,?_⟩
  rw [hslot _ (by decide) (by decide)]
  rfl

/-- The first mutex is `adminMutex` itself. -/
theorem createMutex_fresh_fails : ∃ k',
    (start Kernel.static).kernel.createMutex 0 [98] 0 = (some adminMutex,k') ∧
    adminMutex ∈ (start Kernel.static).live ∧ ¬ Fresh (start Kernel.static) [98] adminMutex k' :=
  ⟨_,start_createMutex (by decide) (by decide),Finset.mem_singleton_self _,
    fun hf => hf.reserved rfl⟩

end MutexTable
end ComplexOS
