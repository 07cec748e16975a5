import ComplexOS.Kernel.Kill

/-! # The table of mutexes

Names, the search for a name, and the release of a mutex, as far as they run without
a yield. A name that is copied into a slot brings no terminator with it.
-/
namespace ComplexOS

/-- A `char` is signed. -/
def char (c : UInt8) : ℤ := if c.toNat < 128 then c.toNat else c.toNat-256

/-- `str2` is given by its bytes before the NUL. -/
def strcmp : (ℕ → UInt8) → List UInt8 → ℤ
  | str1, [] => char (str1 0)
  | str1, c::cs =>
    if str1 0 ≠ 0 ∧ str1 0 = c then strcmp (fun i => str1 (i+1)) cs else char (str1 0)-char c

def Spells (str : ℕ → UInt8) (name : List UInt8) : Prop := ∀ i ≤ name.length, str i = name.getD i 0

theorem char_injective : Function.Injective char := by
  intro a b h
  apply UInt8.toNat_inj.mp
  have ha := a.toNat_lt
  have hb := b.toNat_lt
  unfold char at h
  split at h <;> split at h <;> omega

theorem char_eq_zero {c : UInt8} : char c = 0 ↔ c = 0 :=
  ⟨fun h => char_injective (h.trans (by decide)),fun h => by rw [h]; decide⟩

theorem spells_cons {str : ℕ → UInt8} {c : UInt8} {cs : List UInt8} :
    Spells str (c::cs) ↔ str 0 = c ∧ Spells (fun i => str (i+1)) cs := by
  constructor
  · intro h
    exact ⟨h 0 (Nat.zero_le _),fun i hi => h (i+1) (Nat.succ_le_succ hi)⟩
  · rintro ⟨h0,h⟩ i hi
    cases i with
    | zero => exact h0
    | succ i => exact h i (Nat.le_of_succ_le_succ hi)

theorem strcmp_eq_zero {str : ℕ → UInt8} {name : List UInt8} (h : 0 ∉ name) :
    strcmp str name = 0 ↔ Spells str name := by
  induction name generalizing str with
  | nil =>
    rw [strcmp,char_eq_zero]
    exact ⟨fun hs i hi => by rw [Nat.le_zero.mp hi]; exact hs,fun hs => hs 0 le_rfl⟩
  | cons c cs ih =>
    have hc : c ≠ 0 := fun he => h (he ▸ List.mem_cons_self)
    have hcs : 0 ∉ cs := fun hm => h (List.mem_cons_of_mem _ hm)
    rw [strcmp,spells_cons]
    split
    · rename_i he
      rw [ih hcs]
      exact ⟨fun hs => ⟨he.2,hs⟩,And.right⟩
    · rename_i he
      constructor
      · intro hd
        have heq : str 0 = c := char_injective (by omega)
        exact absurd ⟨heq ▸ hc,heq⟩ he
      · rintro ⟨heq,-⟩
        exact absurd ⟨heq ▸ hc,heq⟩ he

/-- An array spells one name at most. -/
theorem Spells.unique {str : ℕ → UInt8} {a b : List UInt8} (ha : 0 ∉ a) (hb : 0 ∉ b)
    (h : Spells str a) (h' : Spells str b) : a = b := by
  induction a generalizing str b with
  | nil =>
    cases b with
    | nil => rfl
    | cons c cs =>
      have h0 : str 0 = 0 := h 0 le_rfl
      exact absurd (h0.symm.trans (spells_cons.mp h').1) (fun he => hb (he ▸ List.mem_cons_self))
  | cons c cs ih =>
    obtain ⟨hc,hcs⟩ := spells_cons.mp h
    cases b with
    | nil =>
      have h0 : str 0 = 0 := h' 0 le_rfl
      exact absurd (h0.symm.trans hc) (fun he => ha (he ▸ List.mem_cons_self))
    | cons d ds =>
      obtain ⟨hd,hds⟩ := spells_cons.mp h'
      rw [ih (fun hm => ha (List.mem_cons_of_mem _ hm)) (fun hm => hb (List.mem_cons_of_mem _ hm))
        hcs hds,hc.symm.trans hd]

/-- A name copied over the array is spelled by it if the byte behind it is NUL. -/
theorem spells_copied {str : ℕ → UInt8} {name : List UInt8} :
    Spells (fun i => name.getD i (str i)) name ↔ str name.length = 0 := by
  constructor
  · intro h
    have hn := h name.length le_rfl
    simpa using hn
  · intro h i hi
    rcases Nat.lt_or_eq_of_le hi with hlt | rfl
    · simp [List.getElem?_eq_getElem hlt]
    · simpa using h

namespace BlockedList
open SlotTable
variable (l : BlockedList)

def Counted : Prop := l.blockedQuantity = (occupied ThreadId.used maxBlocked l.blocked).card

variable {l} {l' : BlockedList} {t w : ThreadId} {W : Finset ThreadId}

theorem Holds.counted (h : l.Holds W) : l.Counted := by rw [Counted,h.card_occupied,h.quantity]

theorem Counted.holds_empty (h : l.Counted) (hq : l.blockedQuantity = 0) : l.Holds ∅ := by
  have hfree : ∀ i, i < maxBlocked → ¬ (l.blocked i).used := by
    intro i hi hu
    have hcard : (occupied ThreadId.used maxBlocked l.blocked).card = 0 := by
      rw [Counted,hq] at h
      exact_mod_cast h.symm
    have hm := mem_occupied.mpr ⟨hi,hu⟩
    rw [Finset.card_eq_zero.mp hcard] at hm
    cases hm
  exact ⟨hq,fun i hi hu => absurd hu (hfree i hi),by simp,fun i j hi _ hu => absurd hu (hfree i hi),
    by simp⟩

theorem Counted.nonneg (h : l.Counted) : 0 ≤ l.blockedQuantity := by
  rw [h]
  exact Int.natCast_nonneg _

theorem Counted.add (h : l.Counted) (hu : t.used) (ha : l.add t = some l') : l'.Counted := by
  obtain ⟨i,hi,rfl⟩ := Option.map_eq_some_iff.mp ha
  obtain ⟨hlt,hfree⟩ := firstFree_some hi
  have hcard := card_update_used hlt hfree hu
  simp only [Counted] at h ⊢
  omega

/-- An entry is overwritten with an unused one. -/
theorem Counted.erase (h : l.Counted) {i : ℕ} (hi : i < maxBlocked) (hx : (l.blocked i).used)
    {e : ThreadId} (he : ¬ e.used) :
    Counted ⟨Function.update l.blocked i e,l.blockedQuantity-1⟩ := by
  have hcard := card_update_free hi hx he
  simp only [Counted] at h ⊢
  omega

theorem Counted.pop (h : l.Counted) (hp : l.pop = some (w,l')) : l'.Counted := by
  rw [BlockedList.pop] at hp
  split at hp
  · cases hp
  · obtain ⟨i,hi,he⟩ := Option.map_eq_some_iff.mp hp
    cases he
    obtain ⟨hlt,hu⟩ := firstUsed_some hi
    exact h.erase hlt hu not_used_unused

theorem Counted.pop_none (h : l.Counted) : l.pop = none ↔ l.blockedQuantity = 0 := by
  rw [BlockedList.pop]
  split
  · rename_i hq
    exact ⟨fun _ => hq,fun _ => rfl⟩
  · rename_i hq
    refine ⟨fun hn => ?_,fun h0 => absurd h0 hq⟩
    rw [h,firstUsed_eq_none_iff.mp (Option.map_eq_none_iff.mp hn)]
    rfl

theorem pop_quantity (hp : l.pop = some (w,l')) : l'.blockedQuantity = l.blockedQuantity-1 := by
  rw [BlockedList.pop] at hp
  split at hp
  · cases hp
  · obtain ⟨i,-,he⟩ := Option.map_eq_some_iff.mp hp
    cases he
    rfl

end BlockedList

namespace Kernel
variable (k : Kernel) (mutex : ℤ) (t : ThreadId) (name : List UInt8)

/-- The loop of `getMutex`. -/
def findMutex : Option ℤ :=
  (SlotTable.firstUsed (fun m : Mutex => strcmp m.name name = 0 ∧ m.creator.pid ≠ notUsed)
    maxMutexes.toNat (fun i => k.mutexes i)).map Int.ofNat

/-- `unlockProcess` as long as there is a count. A list has `MAX_BLOCKED` entries, so a
loop that is not over after as many rounds never ends. -/
def unlockAll : ℕ → Kernel → Option Kernel
  | n, k =>
    if (k.mutexes mutex).list.blockedQuantity > 0 then
      match n with
      | 0 => none
      | n+1 => (k.unlockProcess mutex).bind (fun x => unlockAll n x.2)
    else some k

/-- `releaseMutex` between its two mutex calls. -/
def releaseMutexBody : Option (Bool × Kernel) :=
  if k.isValidMutex mutex ∧ (k.mutexes mutex).creator = t then
    (unlockAll mutex maxBlocked (k.disownMutex mutex)).map (fun k => (true,k))
  else some (false,k)

/-! ### What each piece does to the table -/

structure SameRest (k k' : Kernel) : Prop where
  semaphores : k'.semaphores = k.semaphores
  current : k'.current = k.current
  firstAvailableMutex : k'.firstAvailableMutex = k.firstAvailableMutex
  usedMutexes : k'.usedMutexes = k.usedMutexes

variable {k mutex t} {k' : Kernel} {u : ThreadId} {st : ProcessState} {o : DownOutcome} {b : Bool}
  {v : Victim} {j : ℕ}

theorem SameRest.refl : SameRest k k := ⟨rfl,rfl,rfl,rfl⟩

theorem SameRest.trans {k'' : Kernel} (h : SameRest k k') (h' : SameRest k' k'') :
    SameRest k k'' :=
  ⟨h'.semaphores.trans h.semaphores,h'.current.trans h.current,
    h'.firstAvailableMutex.trans h.firstAvailableMutex,h'.usedMutexes.trans h.usedMutexes⟩

theorem changeThreadState_table (h : k.changeThreadState t st = some k') :
    k'.mutexes = k.mutexes ∧ SameRest k k' := by
  obtain ⟨ps,-,rfl⟩ := Option.map_eq_some_iff.mp h
  exact ⟨rfl,rfl,rfl,rfl,rfl⟩

/-- The table after a write to one slot and the exchange's write to the next. -/
def marked (k : Kernel) (mutex : ℤ) (m : Mutex) : ℤ → Mutex :=
  Function.update (Function.update k.mutexes (mutex+1)
    { k.mutexes (mutex+1) with creator := { (k.mutexes (mutex+1)).creator with pid := 0 } }) mutex m

inductive Taken (m : Mutex) (t : ThreadId) : DownOutcome → Mutex → Prop
  | free (h : m.value ≠ locked) : Taken m t .returned { m with value := locked, lockProcess := t }
  | queued (h : m.value = locked) {l : BlockedList} (ha : m.list.add t = some l) :
    Taken m t .queued { m with value := locked, list := l }
  | full (h : m.value = locked) (ha : m.list.add t = none) : Taken m t .full { m with value := locked }

theorem testAndSetLock_mutexes : (k.testAndSetLock mutex).mutexes =
    marked k mutex { k.mutexes mutex with value := locked } := by
  have hnext : (k.setMutex mutex { k.mutexes mutex with value := locked }).mutexes (mutex+1) =
      k.mutexes (mutex+1) := setMutex_mutexes_of_ne k (ne_succ mutex).symm _
  rw [testAndSetLock,hnext]
  exact Function.update_comm (ne_succ mutex) _ _ _

theorem marked_update {m m' : Mutex} :
    Function.update (marked k mutex m) mutex m' = marked k mutex m' := by
  unfold marked
  rw [Function.update_idem]

theorem marked_self {m : Mutex} : marked k mutex m mutex = m := by simp [marked]

theorem marked_next {m : Mutex} : marked k mutex m (mutex+1) = { k.mutexes (mutex+1) with
    creator := { (k.mutexes (mutex+1)).creator with pid := 0 } } :=
  (Function.update_of_ne (ne_succ mutex).symm _ _).trans (Function.update_self _ _ _)

/-- Of the other slots the exchange touches the creator of the next one at most. -/
theorem marked_of_ne {i : ℤ} {m : Mutex} (h : i ≠ mutex) : (marked k mutex m i).list = (k.mutexes i).list ∧
    (marked k mutex m i).value = (k.mutexes i).value ∧
    (marked k mutex m i).name = (k.mutexes i).name ∧
    (marked k mutex m i).lockProcess = (k.mutexes i).lockProcess ∧
    ((marked k mutex m i).creator = (k.mutexes i).creator ∨
      i = mutex+1 ∧ (marked k mutex m i).creator = { (k.mutexes i).creator with pid := 0 }) := by
  unfold marked
  rw [Function.update_of_ne h]
  by_cases hi : i = mutex+1
  · subst hi
    rw [Function.update_self]
    exact ⟨rfl,rfl,rfl,rfl,Or.inr ⟨rfl,rfl⟩⟩
  · rw [Function.update_of_ne hi]
    exact ⟨rfl,rfl,rfl,rfl,Or.inl rfl⟩

/-- Slots further away are not touched. -/
theorem marked_far {i : ℤ} {m : Mutex} (h : i ≠ mutex) (h' : i ≠ mutex+1) :
    marked k mutex m i = k.mutexes i := by
  unfold marked
  rw [Function.update_of_ne h,Function.update_of_ne h']

theorem mutexDown_cases (h : k.mutexDown mutex t = some (o,k')) :
    (¬ k.isValidMutex mutex ∧ o = .returned ∧ k' = k) ∨
      (k.isValidMutex mutex ∧ SameRest k k' ∧
        ∃ m, Taken (k.mutexes mutex) t o m ∧ k'.mutexes = marked k mutex m) := by
  rw [mutexDown] at h
  split at h
  · rename_i hv
    right
    simp only at h
    split at h
    · rename_i hl
      split at h
      · rename_i k₁ hadd
        obtain ⟨k₂,hk,he⟩ := Option.map_eq_some_iff.mp h
        cases he
        obtain ⟨l,ha,rfl⟩ := Option.map_eq_some_iff.mp hadd
        obtain ⟨hm,hr⟩ := changeThreadState_table hk
        rw [testAndSetLock_mutexes_self] at ha
        refine ⟨hv,⟨hr.semaphores,hr.current,hr.firstAvailableMutex,hr.usedMutexes⟩,_,.queued hl ha,?_⟩
        rw [hm]
        show Function.update (k.testAndSetLock mutex).mutexes mutex _ = _
        rw [testAndSetLock_mutexes,marked_update]
        simp [marked]
      · rename_i hadd
        cases h
        have ha := Option.map_eq_none_iff.mp hadd
        rw [testAndSetLock_mutexes_self] at ha
        exact ⟨hv,⟨rfl,rfl,rfl,rfl⟩,_,.full hl ha,testAndSetLock_mutexes⟩
    · rename_i hl
      cases h
      refine ⟨hv,⟨rfl,rfl,rfl,rfl⟩,_,.free hl,?_⟩
      show Function.update (k.testAndSetLock mutex).mutexes mutex _ = _
      rw [testAndSetLock_mutexes,marked_update]
      simp [marked]
  · rename_i hv
    cases h
    exact Or.inl ⟨hv,rfl,rfl⟩

theorem unlockProcess_cases (h : k.unlockProcess mutex = some (b,k')) :
    (b = false ∧ (k.mutexes mutex).list.pop = none ∧ k' = k) ∨
      (b = true ∧ SameRest k k' ∧ ∃ w l, (k.mutexes mutex).list.pop = some (w,l) ∧
        k'.mutexes = Function.update k.mutexes mutex
          { k.mutexes mutex with lockProcess := w, list := l }) := by
  simp only [unlockProcess] at h
  split at h
  · rename_i hp
    cases h
    exact Or.inl ⟨rfl,hp,rfl⟩
  · rename_i w l hp
    obtain ⟨k₁,hk,he⟩ := Option.map_eq_some_iff.mp h
    cases he
    obtain ⟨hm,hr⟩ := changeThreadState_table hk
    exact Or.inr ⟨rfl,⟨hr.semaphores,hr.current,hr.firstAvailableMutex,hr.usedMutexes⟩,w,l,hp,hm⟩

inductive GivenUp (m : Mutex) : Mutex → Prop
  | free (h : m.list.pop = none) : GivenUp m { m with value := unlocked }
  | handed {w : ThreadId} {l : BlockedList} (h : m.list.pop = some (w,l)) :
    GivenUp m { m with lockProcess := w, list := l }

theorem mutexUp_cases (h : k.mutexUp mutex t = some k') :
    (¬ (k.isValidMutex mutex ∧ (k.mutexes mutex).lockProcess = t) ∧ k' = k) ∨
      (k.isValidMutex mutex ∧ (k.mutexes mutex).lockProcess = t ∧ SameRest k k' ∧
        ∃ m, GivenUp (k.mutexes mutex) m ∧ k'.mutexes = Function.update k.mutexes mutex m) := by
  rw [mutexUp] at h
  split at h
  · rename_i hv
    obtain ⟨⟨b,k₁⟩,hk,rfl⟩ := Option.map_eq_some_iff.mp h
    refine Or.inr ⟨hv.1,hv.2,?_⟩
    rcases unlockProcess_cases hk with ⟨rfl,hp,rfl⟩ | ⟨rfl,hr,w,l,hp,hm⟩
    · exact ⟨⟨rfl,rfl,rfl,rfl⟩,_,.free hp,rfl⟩
    · exact ⟨hr,_,.handed hp,hm⟩
  · rename_i hv
    cases h
    exact Or.inl ⟨hv,rfl⟩

theorem removeBlockedFromMutex_cases (h : k.removeBlockedFromMutex v mutex j = some k') :
    (¬ v.Covers ((k.mutexes mutex).list.blocked j) ∧ k' = k) ∨
      (v.Covers ((k.mutexes mutex).list.blocked j) ∧ SameRest k k' ∧
        k'.mutexes = Function.update k.mutexes mutex
          { k.mutexes mutex with list := (k.mutexes mutex).list.remove j }) := by
  simp only [removeBlockedFromMutex] at h
  split at h
  · rename_i hc
    obtain ⟨hm,hr⟩ := changeThreadState_table h
    exact Or.inr ⟨hc,⟨hr.semaphores,hr.current,hr.firstAvailableMutex,hr.usedMutexes⟩,hm⟩
  · rename_i hc
    cases h
    exact Or.inl ⟨hc,rfl⟩

/-- The waiters are woken in turn, and the last of them stays the holder on record. -/
theorem unlockAll_cases {n : ℕ} (h : unlockAll mutex n k = some k') :
    SameRest k k' ∧ ∃ m, k'.mutexes = Function.update k.mutexes mutex m ∧
      m.creator = (k.mutexes mutex).creator ∧ m.name = (k.mutexes mutex).name ∧
      m.value = (k.mutexes mutex).value ∧ ¬ m.list.blockedQuantity > 0 ∧
      ((k.mutexes mutex).list.Counted → m.list.Counted) ∧
      (¬ (k.mutexes mutex).list.blockedQuantity > 0 → m = k.mutexes mutex) := by
  induction n generalizing k with
  | zero =>
    unfold unlockAll at h
    split at h
    · cases h
    · rename_i hq
      cases h
      exact ⟨SameRest.refl,_,(Function.update_eq_self _ _).symm,rfl,rfl,rfl,hq,id,fun _ => rfl⟩
  | succ n ih =>
    unfold unlockAll at h
    split at h
    · rename_i hq
      obtain ⟨⟨b,k₁⟩,hk,h⟩ := Option.bind_eq_some_iff.mp h
      obtain ⟨hr,m,hm,hc,hn,hv,hz,hcount,-⟩ := ih h
      rcases unlockProcess_cases hk with ⟨-,-,rfl⟩ | ⟨-,hr₁,w,l,hp,hm₁⟩
      · exact ⟨hr,m,hm,hc,hn,hv,hz,hcount,fun hx => absurd hq hx⟩
      · rw [hm₁,Function.update_self] at hc hn hv hcount
        refine ⟨hr₁.trans hr,m,?_,hc,hn,hv,hz,fun hx => hcount (hx.pop hp),fun hx => absurd hq hx⟩
        rw [hm,hm₁,Function.update_idem]
    · rename_i hq
      cases h
      exact ⟨SameRest.refl,_,(Function.update_eq_self _ _).symm,rfl,rfl,rfl,hq,id,fun _ => rfl⟩

theorem releaseMutexBody_cases (h : k.releaseMutexBody mutex t = some (b,k')) :
    (b = false ∧ ¬ (k.isValidMutex mutex ∧ (k.mutexes mutex).creator = t) ∧ k' = k) ∨
      (b = true ∧ k.isValidMutex mutex ∧ (k.mutexes mutex).creator = t ∧ SameRest k k' ∧
        ∃ m, k'.mutexes = Function.update k.mutexes mutex m ∧ m.creator.pid = notUsed ∧
          m.name = (k.mutexes mutex).name ∧ m.value = (k.mutexes mutex).value ∧
          ¬ m.list.blockedQuantity > 0 ∧
          ((k.mutexes mutex).list.Counted → m.list.Counted) ∧
          (¬ (k.mutexes mutex).list.blockedQuantity > 0 →
            m.lockProcess.pid = notUsed ∧ m.list = (k.mutexes mutex).list)) := by
  unfold releaseMutexBody at h
  split at h
  · rename_i hv
    obtain ⟨k₁,hk,he⟩ := Option.map_eq_some_iff.mp h
    cases he
    obtain ⟨hr,m,hm,hc,hn,hval,hz,hcount,hsame⟩ := unlockAll_cases hk
    have hself : (k.disownMutex mutex).mutexes mutex = { k.mutexes mutex with
        creator := { (k.mutexes mutex).creator with pid := notUsed }
        lockProcess := { (k.mutexes mutex).lockProcess with pid := notUsed } } :=
      setMutex_mutexes_self k mutex _
    rw [hself] at hc hn hval hcount hsame
    refine Or.inr ⟨rfl,hv.1,hv.2,⟨hr.semaphores,hr.current,hr.firstAvailableMutex,hr.usedMutexes⟩,
      m,?_,by rw [hc],hn,hval,hz,hcount,fun hq => ?_⟩
    · rw [hm]
      show Function.update (Function.update k.mutexes mutex _) mutex m = _
      rw [Function.update_idem]
    · rw [hsame hq]
      exact ⟨rfl,rfl⟩
  · rename_i hv
    cases h
    exact Or.inl ⟨rfl,hv,rfl⟩

def named (m : Mutex) (name : List UInt8) (creator : ThreadId) : Mutex :=
  { m with name := fun i => name.getD i (m.name i), creator := creator }

variable {name} {pid thread : ℤ} {r : Option ℤ}

theorem getNextMutexAvailable_spec : (k.getNextMutexAvailable = fullList ∧
      ∀ i, 0 ≤ i → i < maxMutexes → (k.mutexes i).creator.pid ≠ notUsed) ∨
    (0 ≤ k.getNextMutexAvailable ∧ k.getNextMutexAvailable < maxMutexes ∧
      (k.mutexes k.getNextMutexAvailable).creator.pid = notUsed) := by
  unfold getNextMutexAvailable
  cases hf : SlotTable.firstFree (fun m : Mutex => m.creator.pid ≠ notUsed) maxMutexes.toNat
      (fun i => k.mutexes i) with
  | none =>
    left
    refine ⟨rfl,fun i h0 h1 => ?_⟩
    lift i to ℕ using h0
    have hlt : i < maxMutexes.toNat := by omega
    exact SlotTable.firstFree_none (f := fun i : ℕ => k.mutexes i) hf hlt
  | some i =>
    right
    obtain ⟨hlt,hfree⟩ := SlotTable.firstFree_some hf
    refine ⟨Int.natCast_nonneg i,?_,by simpa using hfree⟩
    simp only [Option.map_some,Option.getD_some,Int.ofNat_eq_natCast]
    omega

/-- The creations that fail, and the one slot that the others write. -/
theorem createMutex_cases (h : k.createMutex pid name thread = (r,k')) :
    (r = none ∧ ¬ (k.usedMutexes < maxMutexes ∧ name.length < maxName) ∧ k' = k) ∨
      (r = some k.firstAvailableMutex ∧ k.usedMutexes < maxMutexes ∧ name.length < maxName ∧
        k'.mutexes = Function.update k.mutexes k.firstAvailableMutex
          (named (k.mutexes k.firstAvailableMutex) name ⟨pid,thread⟩) ∧
        k'.usedMutexes = k.usedMutexes+1 ∧
        k'.firstAvailableMutex = k'.getNextMutexAvailable ∧
        k'.semaphores = k.semaphores ∧ k'.processes = k.processes ∧ k'.current = k.current) := by
  unfold createMutex at h
  split at h
  · rename_i hc
    cases h
    exact Or.inr ⟨rfl,hc.1,hc.2,rfl,rfl,rfl,rfl,rfl,rfl⟩
  · rename_i hc
    cases h
    exact Or.inl ⟨rfl,hc,rfl⟩

def take (k : Kernel) (mutex : ℤ) (t : ThreadId) : Kernel :=
  { k with mutexes := marked k mutex { k.mutexes mutex with value := locked, lockProcess := t } }

theorem mutexDown_take (hv : k.isValidMutex mutex) (hf : (k.mutexes mutex).value ≠ locked) :
    k.mutexDown mutex t = some (.returned,k.take mutex t) := by
  have hm : Function.update (k.testAndSetLock mutex).mutexes mutex
      { k.mutexes mutex with value := locked, lockProcess := t } = (k.take mutex t).mutexes := by
    rw [testAndSetLock_mutexes,marked_update]
    rfl
  rw [mutexDown,if_pos hv,if_neg hf,testAndSetLock_mutexes_self]
  exact congrArg (fun x => some (DownOutcome.returned,{ k with mutexes := x })) hm

theorem take_self : (k.take mutex t).mutexes mutex =
    { k.mutexes mutex with value := locked, lockProcess := t } := by
  simp [take,marked]

theorem mutexDown_invalid (hv : ¬ k.isValidMutex mutex) :
    k.mutexDown mutex t = some (.returned,k) := if_neg hv

def cycle (k : Kernel) (mutex : ℤ) (t : ThreadId) : Kernel :=
  { k with mutexes := marked k mutex { k.mutexes mutex with value := unlocked, lockProcess := t } }

theorem cycle_self : (k.cycle mutex t).mutexes mutex =
    { k.mutexes mutex with value := unlocked, lockProcess := t } := marked_self

theorem cycle_next : (k.cycle mutex t).mutexes (mutex+1) = { k.mutexes (mutex+1) with
    creator := { (k.mutexes (mutex+1)).creator with pid := 0 } } := marked_next

theorem cycle_far {i : ℤ} (h : i ≠ mutex) (h' : i ≠ mutex+1) :
    (k.cycle mutex t).mutexes i = k.mutexes i := marked_far h h'

theorem mutexUp_take (hv : k.isValidMutex mutex) (hp : (k.mutexes mutex).list.pop = none) :
    (k.take mutex t).mutexUp mutex t = some (k.cycle mutex t) := by
  have hself : (k.take mutex t).mutexes mutex =
      { k.mutexes mutex with value := locked, lockProcess := t } := take_self
  have hm : Function.update (k.take mutex t).mutexes mutex
      { (k.take mutex t).mutexes mutex with value := unlocked } = (k.cycle mutex t).mutexes := by
    rw [hself]
    exact marked_update
  rw [mutexUp_last ⟨hv.1,hv.2.1,by rw [hself]; exact hv.2.2⟩ (by rw [hself]) (by rw [hself]; exact hp)]
  exact congrArg (fun x => some { k with mutexes := x }) hm

end Kernel
end ComplexOS
