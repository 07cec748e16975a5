import ComplexOS.Kernel.InternalLocks
import ComplexOS.Kernel.Pools
import ComplexOS.Library.Directory

/-! # Names in the tables

A slot in use bears the name that its array spells. Creations that write a whole name and
releases keep the directory of the table.
-/
namespace ComplexOS
open Directory SlotTable

abbrev Name := {name : List UInt8 // name ≠ [] ∧ 0 ∉ name ∧ name.length < maxName}

namespace Kernel

section Bears
variable {α : Type*} (size : ℤ) (creator : α → ThreadId) (name : α → ℕ → UInt8)

def Bears (f : ℤ → α) (i : ℤ) (n : Name) : Prop :=
  (0 ≤ i ∧ i < size) ∧ (creator (f i)).pid ≠ notUsed ∧ Spells (name (f i)) n.1

variable {size creator name} {f : ℤ → α} {x : α} {i j : ℤ} {n m : Name}

/-- The loop over the table with `strcmp` searches for it. -/
theorem bears_searches : Searches (Bears size creator name f) (fun n =>
    (firstUsed (fun x => strcmp (name x) n.1 = 0 ∧ (creator x).pid ≠ notUsed) size.toNat
      (fun i : ℕ => f i)).map Int.ofNat) := by
  constructor
  · intro n i h
    obtain ⟨j,hj,rfl⟩ := Option.map_eq_some_iff.mp h
    obtain ⟨hlt,hs,hu⟩ := firstUsed_some hj
    refine ⟨⟨Int.natCast_nonneg j,?_⟩,hu,(strcmp_eq_zero n.2.2.1).mp hs⟩
    simp only [Int.ofNat_eq_natCast]
    omega
  · rintro n h i ⟨⟨h0,h1⟩,hu,hs⟩
    lift i to ℕ using h0
    exact firstUsed_none (Option.map_eq_none_iff.mp h) (by omega : i < size.toNat)
      ⟨(strcmp_eq_zero n.2.2.1).mpr hs,hu⟩

theorem Bears.unique (h : Bears size creator name f i n) (h' : Bears size creator name f i m) :
    n = m := Subtype.ext (Spells.unique n.2.2.1 m.2.2.1 h.2.2 h'.2.2)

theorem bears_congr {g : ℤ → α} (h : ∀ i, 0 ≤ i → i < size → name (g i) = name (f i) ∧
    ((creator (g i)).pid = notUsed ↔ (creator (f i)).pid = notUsed)) :
    Bears size creator name g i n ↔ Bears size creator name f i n := by
  refine and_congr_right (fun hi => ?_)
  obtain ⟨hn,hc⟩ := h i hi.1 hi.2
  rw [hn]
  exact and_congr_left (fun _ => not_congr hc)

/-- A free slot gets a name whose end was there already. -/
theorem bears_create (hi : 0 ≤ i ∧ i < size) (hfree : (creator (f i)).pid = notUsed)
    (hc : (creator x).pid ≠ notUsed) (hx : Spells (name x) n.1) :
    Bears size creator name (Function.update f i x) j m ↔
      j = i ∧ m = n ∨ Bears size creator name f j m := by
  by_cases hj : j = i
  · subst hj
    simp only [Bears,Function.update_self,hfree,ne_eq,not_true_eq_false,false_and,and_false,or_false,
      true_and]
    constructor
    · rintro ⟨-,-,hm⟩
      exact Subtype.ext (Spells.unique m.2.2.1 n.2.2.1 hm hx)
    · rintro rfl
      exact ⟨hi,hc,hx⟩
  · simp only [Bears,Function.update_of_ne hj,hj,false_and,false_or]

theorem bears_release (hx : (creator x).pid = notUsed) :
    Bears size creator name (Function.update f i x) j m ↔
      j ≠ i ∧ Bears size creator name f j m := by
  by_cases hj : j = i
  · subst hj
    simp [Bears,hx]
  · simp [Bears,hj]

end Bears

variable {k k' : Kernel} {names : List (ℤ × Name)} {n : Name} {i mutex pid thread : ℤ} {t : ThreadId}
  {r : Option ℤ} {b : Bool} {v : ℤ}

def MutexBears (k : Kernel) : ℤ → Name → Prop :=
  Bears maxMutexes Mutex.creator Mutex.name k.mutexes

def SemaphoreBears (k : Kernel) : ℤ → Name → Prop :=
  Bears maxSemaphores Semaphore.creator Semaphore.name k.semaphores

theorem mutexBears_searches : Searches k.MutexBears (fun n => k.findMutex n.1) :=
  bears_searches (f := k.mutexes)

theorem semaphoreBears_searches : Searches k.SemaphoreBears (fun n => k.findSemaphore n.1) :=
  bears_searches (f := k.semaphores)

structure Quiet (k : Kernel) : Prop where
  guarded : k.Guarded
  idle : ∀ i, InMutexes i → (k.mutexes i).list.blockedQuantity = 0

namespace Quiet

theorem pop (h : k.Quiet) (hi : InMutexes i) : (k.mutexes i).list.pop = none := by
  unfold BlockedList.pop
  rw [if_pos (h.idle i hi)]

theorem lockSlot (h : k.Quiet) : (k.lockSlot mutex v t).Quiet :=
  ⟨h.guarded.lockSlot,fun i hi => by rw [lockSlot_list]; exact h.idle i hi⟩

theorem createMutex {name : List UInt8} (h : k.Quiet)
    (hk : k.createMutex pid name thread = (r,k')) : k'.Quiet := by
  refine ⟨h.guarded.createMutex hk,fun i hi => ?_⟩
  obtain ⟨-,-,rfl⟩ | ⟨-,-,-,hm,-⟩ := createMutex_cases hk
  · exact h.idle i hi
  · rw [hm]
    by_cases he : i = k.firstAvailableMutex
    · rw [he,Function.update_self]
      exact h.idle _ (he ▸ hi)
    · rw [Function.update_of_ne he]
      exact h.idle i hi

theorem semaphores (h : k.Quiet) {x : ℤ → Semaphore} : Quiet { k with semaphores := x } :=
  ⟨h.guarded.congr (fun _ _ _ => rfl) rfl,h.idle⟩

/-- With nobody to wake a release only disowns. -/
theorem releaseMutexBody (h : k.Quiet) : k.releaseMutexBody mutex t =
    some (if k.isValidMutex mutex ∧ (k.mutexes mutex).creator = t then
      (true,k.disownMutex mutex) else (false,k)) := by
  by_cases hv : k.isValidMutex mutex
  · exact releaseMutexBody_idle (h.idle mutex ⟨hv.1,hv.2.1⟩)
  · unfold Kernel.releaseMutexBody
    rw [if_neg (fun hx => hv hx.1),if_neg (fun hx => hv hx.1)]

theorem released (h : k.Quiet) (hp : 0 < t.pid) (hk : k.releaseMutexBody mutex t = some (b,k')) :
    k'.Quiet := by
  refine ⟨h.guarded.releaseMutexBody hp hk,fun i hi => ?_⟩
  obtain ⟨-,-,rfl⟩ | ⟨-,hv,-,-,m,hm,-,-,-,-,-,hidle⟩ := releaseMutexBody_cases hk
  · exact h.idle i hi
  · have hq := h.idle mutex ⟨hv.1,hv.2.1⟩
    rw [hm]
    by_cases he : i = mutex
    · rw [he,Function.update_self,(hidle (by omega)).2]
      exact hq
    · rw [Function.update_of_ne he]
      exact h.idle i hi

/-- With nobody to wake the holder just opens the lock. -/
theorem mutexUp (h : k.Quiet) : k.mutexUp mutex t = some
    (if k.isValidMutex mutex ∧ (k.mutexes mutex).lockProcess = t then k.lockSlot mutex unlocked t
      else k) := by
  split
  · rename_i hv
    rw [mutexUp_last hv.1 hv.2 (h.pop ⟨hv.1.1,hv.1.2.1⟩),← hv.2]
    rfl
  · rename_i hv
    exact mutexUp_ignored hv

end Quiet

theorem liveMutexes_full (h : ∀ i, 0 ≤ i → i < maxMutexes → (k.mutexes i).creator.pid ≠ notUsed) :
    (k.liveMutexes : ℤ) = maxMutexes := by
  have hall : occupied (fun m : Mutex => m.creator.pid ≠ notUsed) maxMutexes.toNat
      (fun i => k.mutexes i) = Finset.range maxMutexes.toNat :=
    Finset.filter_true_of_mem (fun i hi =>
      h i (Int.natCast_nonneg i) (inMutexes_nat (Finset.mem_range.mp hi)).2)
  unfold liveMutexes
  rw [hall,Finset.card_range]
  rfl

/-- The mutexes in use are the entries of a directory, and the slot to be handed out next
is free as long as the counter lets a creation pass. -/
structure Filed (k : Kernel) (names : List (ℤ × Name)) : Prop extends Quiet k where
  files : Files k.MutexBears names
  count : (k.liveMutexes : ℤ) < k.usedMutexes
  cached : k.usedMutexes < maxMutexes → k.CachedFree

namespace Filed

theorem find (h : k.Filed names) : k.findMutex n.1 = some i ↔ (i,n) ∈ names :=
  h.files.find mutexBears_searches

theorem lockSlot (h : k.Filed names) : (k.lockSlot mutex v t).Filed names := by
  have hsame : SameSlots k (k.lockSlot mutex v t) :=
    ⟨fun i _ => lockSlot_name,fun i _ => by rw [lockSlot_creator],rfl,rfl,rfl⟩
  refine ⟨h.toQuiet.lockSlot,h.files.congr (fun i n => bears_congr (fun i h0 h1 => ?_)),?_,fun hu => ?_⟩
  · exact ⟨hsame.name i ⟨h0,h1⟩,hsame.used i ⟨h0,h1⟩⟩
  · rw [hsame.liveMutexes]
    exact h.count
  · obtain ⟨hi,hf⟩ := h.cached hu
    exact ⟨hi,(hsame.used _ hi).mpr hf⟩

/-- A creation enters its name if the end of the name is in the slot already. -/
theorem createMutex (h : k.Filed names) (hn : ∀ i, (i,n) ∉ names) (hu : k.usedMutexes < maxMutexes)
    (hz : (k.mutexes k.firstAvailableMutex).name n.1.length = 0) (hp : pid ≠ notUsed)
    (hk : k.createMutex pid n.1 thread = (r,k')) :
    r = some k.firstAvailableMutex ∧ k'.Filed ((k.firstAvailableMutex,n)::names) := by
  obtain ⟨hi,hfree⟩ := h.cached hu
  obtain ⟨rfl,-⟩ | ⟨-,-,-,hused,-,-,hlive⟩ := createMutex_liveMutexes hp hk
  · obtain ⟨-,hx,-⟩ | ⟨hx,-⟩ := createMutex_cases hk
    · exact absurd ⟨hu,n.2.2.2⟩ hx
    · cases hx
  obtain ⟨-,hx,-⟩ | ⟨hr,-,-,hm,-,hfirst,-⟩ := createMutex_cases hk
  · exact absurd ⟨hu,n.2.2.2⟩ hx
  have hlive := hlive ⟨hi,hfree⟩
  have hcount := h.count
  have hmiss : ∀ j, ¬ k.MutexBears j n := fun j hb => hn j ((h.files.bears j n).mp hb)
  have hbears : ∀ j m, k'.MutexBears j m ↔ j = k.firstAvailableMutex ∧ m = n ∨ k.MutexBears j m := by
    intro j m
    unfold MutexBears
    rw [hm]
    exact bears_create hi hfree hp (spells_copied.mpr hz)
  refine ⟨hr,h.toQuiet.createMutex hk,h.files.insert hmiss hbears,by omega,fun hu' => ?_⟩
  unfold CachedFree
  rw [hfirst]
  obtain ⟨-,hall⟩ | ⟨h0,h1,hf⟩ := getNextMutexAvailable_spec (k := k')
  · have hfull := liveMutexes_full hall
    omega
  · exact ⟨⟨h0,h1⟩,hf⟩

theorem disownMutex (h : k.Filed names) (hq : (k.disownMutex mutex).Quiet) :
    (k.disownMutex mutex).Filed (names.filter (fun x => decide (x.1 ≠ mutex))) := by
  refine ⟨hq,h.files.erase (fun j m => bears_release rfl),?_,fun hu => ?_⟩
  · have hle : (k.disownMutex mutex).liveMutexes ≤ k.liveMutexes :=
      liveMutexes_update_le rfl (fun hx => absurd rfl hx)
    have hcount := h.count
    show ((k.disownMutex mutex).liveMutexes : ℤ) < k.usedMutexes
    omega
  · obtain ⟨hi,hf⟩ := h.cached hu
    refine ⟨hi,?_⟩
    show (Function.update k.mutexes mutex _ k.firstAvailableMutex).creator.pid = _
    by_cases he : k.firstAvailableMutex = mutex
    · rw [he,Function.update_self]
    · rw [Function.update_of_ne he]
      exact hf

end Filed
end Kernel
end ComplexOS
