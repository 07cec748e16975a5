import Mathlib.Data.Finset.Card
import Mathlib.Data.List.Find
import Mathlib.Data.Finset.Range

/-! # Fixed tables of slots

A table is a function on slot numbers of which the first `n` count. A slot is
occupied or not according to its entry. The linear searches of array code answer
the first slot of a kind; a write to one slot moves the occupied set by one slot.
-/
namespace ComplexOS.SlotTable
variable {α : Type*} (used : α → Prop) [DecidablePred used] (n : ℕ)

def firstFree (f : ℕ → α) : Option ℕ := (List.range n).find? (fun j => decide (¬ used (f j)))

def firstUsed (f : ℕ → α) : Option ℕ := (List.range n).find? (fun j => decide (used (f j)))

def occupied (f : ℕ → α) : Finset ℕ := (Finset.range n).filter (fun j => used (f j))

/-- The entries of the occupied slots, in the order of the slots. -/
def entries (f : ℕ → α) : List α := ((List.range n).map f).filter (fun a => decide (used a))

variable {used n} {f : ℕ → α} {j : ℕ} {a : α}

theorem mem_occupied : j ∈ occupied used n f ↔ j < n ∧ used (f j) := by
  simp [occupied]

theorem firstFree_some (h : firstFree used n f = some j) : j < n ∧ ¬ used (f j) := by
  have hp := List.find?_some h
  exact ⟨List.mem_range.mp (List.mem_of_find?_eq_some h),of_decide_eq_true hp⟩

theorem firstFree_none (h : firstFree used n f = none) (hj : j < n) : used (f j) := by
  have hp := List.find?_eq_none.mp h j (List.mem_range.mpr hj)
  simpa using hp

theorem firstFree_eq_some (hj : j < n) (hfree : ¬ used (f j)) (h : ∀ i < j, used (f i)) :
    firstFree used n f = some j := by
  unfold firstFree
  rw [List.find?_range_eq_some]
  exact ⟨decide_eq_true hfree,List.mem_range.mpr hj,fun i hi => by simpa using h i hi⟩

theorem firstUsed_some (h : firstUsed used n f = some j) : j < n ∧ used (f j) := by
  have hp := List.find?_some h
  exact ⟨List.mem_range.mp (List.mem_of_find?_eq_some h),of_decide_eq_true hp⟩

theorem firstUsed_none (h : firstUsed used n f = none) (hj : j < n) : ¬ used (f j) := by
  have hp := List.find?_eq_none.mp h j (List.mem_range.mpr hj)
  simpa using hp

theorem firstUsed_eq_none_iff : firstUsed used n f = none ↔ occupied used n f = ∅ := by
  constructor
  · intro h
    refine Finset.eq_empty_of_forall_notMem (fun j hj => ?_)
    obtain ⟨hlt,hu⟩ := mem_occupied.mp hj
    exact firstUsed_none h hlt hu
  · intro h
    cases hf : firstUsed used n f with
    | none => rfl
    | some j =>
      have := mem_occupied.mpr (firstUsed_some hf)
      rw [h] at this
      cases this

theorem firstUsed_congr {g : ℕ → α} (h : ∀ j < n, used (f j) ↔ used (g j)) :
    firstUsed used n f = firstUsed used n g := by
  unfold firstUsed
  apply List.find?_congr
  intro j hj
  simp only [h j (List.mem_range.mp hj)]

theorem occupied_congr {g : ℕ → α} (h : ∀ j < n, used (f j) ↔ used (g j)) :
    occupied used n f = occupied used n g := by
  ext j
  rw [mem_occupied,mem_occupied]
  exact and_congr_right (fun hj => h j hj)

theorem occupied_card_le : (occupied used n f).card ≤ n := by
  simpa [occupied] using Finset.card_filter_le (Finset.range n) (fun j => used (f j))

/-- A table is full exactly when the search for a free slot fails. -/
theorem firstFree_eq_none_iff : firstFree used n f = none ↔ (occupied used n f).card = n := by
  constructor
  · intro h
    have he : occupied used n f = Finset.range n :=
      Finset.filter_true_of_mem (fun j hj => firstFree_none h (Finset.mem_range.mp hj))
    rw [he,Finset.card_range]
  · intro h
    cases hf : firstFree used n f with
    | none => rfl
    | some j =>
      obtain ⟨hlt,hu⟩ := firstFree_some hf
      have hsub : occupied used n f ⊆ (Finset.range n).erase j := by
        intro i hi
        obtain ⟨hi,hui⟩ := mem_occupied.mp hi
        exact Finset.mem_erase.mpr ⟨fun he => hu (he ▸ hui),Finset.mem_range.mpr hi⟩
      have hle := Finset.card_le_card hsub
      rw [Finset.card_erase_of_mem (Finset.mem_range.mpr hlt),Finset.card_range,h] at hle
      omega

theorem occupied_update_used (hj : j < n) (ha : used a) :
    occupied used n (Function.update f j a) = insert j (occupied used n f) := by
  ext i
  by_cases h : i = j
  · subst h
    simp [mem_occupied,hj,ha]
  · simp [mem_occupied,h]

theorem occupied_update_free (ha : ¬ used a) :
    occupied used n (Function.update f j a) = (occupied used n f).erase j := by
  ext i
  by_cases h : i = j
  · subst h
    simp [mem_occupied,ha]
  · simp [mem_occupied,h]

theorem card_update_used (hj : j < n) (hf : ¬ used (f j)) (ha : used a) :
    (occupied used n (Function.update f j a)).card = (occupied used n f).card + 1 := by
  rw [occupied_update_used hj ha,Finset.card_insert_of_notMem (by simp [mem_occupied,hf])]

theorem card_update_free (hj : j < n) (hf : used (f j)) (ha : ¬ used a) :
    (occupied used n (Function.update f j a)).card + 1 = (occupied used n f).card := by
  rw [occupied_update_free ha]
  exact Finset.card_erase_add_one (mem_occupied.mpr ⟨hj,hf⟩)

theorem mem_entries : a ∈ entries used n f ↔ used a ∧ ∃ j < n, f j = a := by
  simp [entries,and_comm]

theorem length_entries : (entries used n f).length = (occupied used n f).card := by
  have hmap : entries used n f = ((List.range n).filter (fun j => decide (used (f j)))).map f :=
    List.filter_map
  have hnd : ((List.range n).filter (fun j => decide (used (f j)))).Nodup :=
    List.nodup_range.filter _
  rw [hmap,List.length_map,← List.toFinset_card_of_nodup hnd]
  congr 1
  ext j
  simp [mem_occupied]

theorem length_entries_le : (entries used n f).length ≤ n := by
  rw [length_entries]
  exact occupied_card_le

/-- The first occupied slot gives up the first entry. -/
theorem entries_firstUsed (h : firstUsed used n f = some j) (ha : ¬ used a) :
    entries used n f = f j::entries used n (Function.update f j a) := by
  have hlist : ∀ js : List ℕ, js.Nodup → js.find? (fun i => decide (used (f i))) = some j →
      (js.map f).filter (fun a => decide (used a)) =
        f j::(js.map (Function.update f j a)).filter (fun a => decide (used a)) := by
    intro js
    induction js with
    | nil => exact fun _ h => by cases h
    | cons i js ih =>
      intro hnd hfind
      obtain ⟨hi,hnd⟩ := List.nodup_cons.mp hnd
      by_cases hu : used (f i)
      · simp only [List.find?_cons,hu,decide_true] at hfind
        obtain rfl := Option.some.inj hfind
        have hrest : js.map (Function.update f i a) = js.map f := by
          refine List.map_congr_left (fun k hk => Function.update_of_ne ?_ _ _)
          rintro rfl
          exact hi hk
        simp only [List.map_cons,List.filter_cons,Function.update_self,hu,ha,decide_true,decide_false,
          ↓reduceIte,Bool.false_eq_true,hrest]
      · simp only [List.find?_cons,hu,decide_false] at hfind
        have hj := List.find?_some hfind
        have hne : i ≠ j := fun he => hu (he ▸ of_decide_eq_true hj)
        simp only [List.map_cons,List.filter_cons,Function.update_of_ne hne,hu,decide_false,
          Bool.false_eq_true,↓reduceIte]
        exact ih hnd hfind
  exact hlist _ List.nodup_range h

theorem entries_filter {p : α → Prop} [DecidablePred p] (ha : ¬ used a) :
    entries used n (fun j => if j < n ∧ p (f j) then a else f j) =
      (entries used n f).filter (fun x => ¬ p x) := by
  have hlist : ∀ js : List ℕ, (∀ j ∈ js, j < n) →
      (js.map (fun j => if j < n ∧ p (f j) then a else f j)).filter (fun x => decide (used x)) =
        ((js.map f).filter (fun x => decide (used x))).filter (fun x => ¬ p x) := by
    intro js hjs
    induction js with
    | nil => rfl
    | cons j js ih =>
      have ih := ih (fun i hi => hjs i (List.mem_cons_of_mem _ hi))
      have hj := hjs j List.mem_cons_self
      by_cases hp : p (f j)
      · have hnew : (if j < n ∧ p (f j) then a else f j) = a := if_pos ⟨hj,hp⟩
        rw [List.map_cons,List.map_cons,hnew,List.filter_cons_of_neg (by simpa using ha),ih]
        by_cases hu : used (f j)
        · rw [List.filter_cons_of_pos (by simpa using hu),List.filter_cons_of_neg (by simpa using hp)]
        · rw [List.filter_cons_of_neg (by simpa using hu)]
      · have hnew : (if j < n ∧ p (f j) then a else f j) = f j := if_neg (fun hx => hp hx.2)
        rw [List.map_cons,List.map_cons,hnew]
        by_cases hu : used (f j)
        · rw [List.filter_cons_of_pos (by simpa using hu),List.filter_cons_of_pos (by simpa using hu),
            List.filter_cons_of_pos (by simpa using hp),ih]
        · rw [List.filter_cons_of_neg (by simpa using hu),List.filter_cons_of_neg (by simpa using hu),ih]
  exact hlist _ (fun j hj => List.mem_range.mp hj)

/-- An entry more stands somewhere among the others. -/
theorem entries_update (hj : j < n) (hf : ¬ used (f j)) (ha : used a) :
    ∃ as bs, entries used n f = as++bs ∧ entries used n (Function.update f j a) = as++a::bs := by
  have hlist : ∀ js : List ℕ, js.Nodup → j ∈ js → ∃ as bs,
      (js.map f).filter (fun x => decide (used x)) = as++bs ∧
      (js.map (Function.update f j a)).filter (fun x => decide (used x)) = as++a::bs := by
    intro js
    induction js with
    | nil => exact fun _ h => absurd h List.not_mem_nil
    | cons i js ih =>
      intro hnd hmem
      obtain ⟨hi,hnd⟩ := List.nodup_cons.mp hnd
      by_cases he : i = j
      · subst he
        have hrest : js.map (Function.update f i a) = js.map f := by
          refine List.map_congr_left (fun k hk => Function.update_of_ne ?_ _ _)
          rintro rfl
          exact hi hk
        refine ⟨[],(js.map f).filter (fun x => decide (used x)),?_,?_⟩
        · rw [List.map_cons,List.filter_cons_of_neg (by simpa using hf),List.nil_append]
        · rw [List.map_cons,Function.update_self,List.filter_cons_of_pos (by simpa using ha),hrest]
          rfl
      · obtain ⟨as,bs,hold,hnew⟩ := ih hnd ((List.mem_cons.mp hmem).resolve_left (Ne.symm he))
        rw [List.map_cons,List.map_cons,Function.update_of_ne he]
        by_cases hu : used (f i)
        · refine ⟨f i::as,bs,?_,?_⟩
          · rw [List.filter_cons_of_pos (by simpa using hu),hold,List.cons_append]
          · rw [List.filter_cons_of_pos (by simpa using hu),hnew,List.cons_append]
        · refine ⟨as,bs,?_,?_⟩
          · rw [List.filter_cons_of_neg (by simpa using hu),hold]
          · rw [List.filter_cons_of_neg (by simpa using hu),hnew]
  exact hlist _ List.nodup_range (List.mem_range.mpr hj)

end ComplexOS.SlotTable
