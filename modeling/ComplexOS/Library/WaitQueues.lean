import Mathlib.Data.Finset.Insert
import Mathlib.Data.Finset.Erase
import Mathlib.Logic.Function.Basic

/-! # Sleeping on queues

Tasks are put to sleep on queues and woken from them. `asleep` and `gone` say what
became of a task, `why` is the queue it was last put to sleep on, and `waiting` the
tasks on each queue. The discipline: who is on a queue sleeps because of it, and who
sleeps because of a queue is on it.
-/
namespace ComplexOS.WaitQueues
variable {τ κ : Type*}

structure Consistent (asleep gone : τ → Prop) (why : τ → Option κ) (waiting : κ → Finset τ) :
    Prop where
  sleeps : ∀ q t, t ∈ waiting q → asleep t ∨ gone t
  reason : ∀ q t, t ∈ waiting q → why t = some q
  listed : ∀ q t, asleep t → why t = some q → t ∈ waiting q

variable {asleep gone asleep' gone' : τ → Prop} {why why' : τ → Option κ}
  {waiting : κ → Finset τ} {q q' : κ} {t u : τ}

namespace Consistent

/-- Nobody is on two queues. -/
theorem unique (h : Consistent asleep gone why waiting) (hq : t ∈ waiting q)
    (hq' : t ∈ waiting q') : q = q' :=
  Option.some.inj ((h.reason q t hq).symm.trans (h.reason q' t hq'))

/-- Who is awake is on no queue. -/
theorem not_waiting (h : Consistent asleep gone why waiting) (hs : ¬ asleep t) (hg : ¬ gone t) :
    t ∉ waiting q :=
  fun hm => (h.sleeps q t hm).elim hs hg

/-- A task may change in any way while it is on no queue, as long as it is not left
asleep for an old reason; and it may go at any time. -/
theorem frame (h : Consistent asleep gone why waiting)
    (hs : ∀ t, why' t = why t ∧ ((asleep' t ↔ asleep t) ∧ (gone' t ↔ gone t) ∨ gone' t ∧ ¬ asleep' t) ∨
      (∀ q, t ∉ waiting q) ∧ (asleep' t → why' t = none)) :
    Consistent asleep' gone' why' waiting := by
  refine ⟨fun q t hm => ?_,fun q t hm => ?_,fun q t ha hy => ?_⟩
  · rcases hs t with ⟨-,⟨h1,h2⟩ | ⟨h1,-⟩⟩ | ⟨hn,-⟩
    · rw [h1,h2]
      exact h.sleeps q t hm
    · exact Or.inr h1
    · exact absurd hm (hn q)
  · rcases hs t with ⟨hy,-⟩ | ⟨hn,-⟩
    · rw [hy]
      exact h.reason q t hm
    · exact absurd hm (hn q)
  · rcases hs t with ⟨hy',⟨h1,-⟩ | ⟨-,h1⟩⟩ | ⟨-,hn⟩
    · exact h.listed q t (h1.mp ha) (hy' ▸ hy)
    · exact absurd ha h1
    · rw [hn ha] at hy
      cases hy

variable [DecidableEq τ] [DecidableEq κ]

theorem enqueue (h : Consistent asleep gone why waiting) (hn : ∀ q, t ∉ waiting q)
    (ht : asleep' t ∨ gone' t) (hs : ∀ u, u ≠ t → (asleep' u ↔ asleep u) ∧ (gone' u ↔ gone u)) :
    Consistent asleep' gone' (Function.update why t (some q))
      (Function.update waiting q (insert t (waiting q))) := by
  have hother : ∀ q', q' ≠ q → Function.update waiting q (insert t (waiting q)) q' = waiting q' :=
    fun q' hq' => Function.update_of_ne hq' _ _
  have hmem : ∀ q' u, u ∈ Function.update waiting q (insert t (waiting q)) q' →
      (u = t ∧ q' = q) ∨ (u ≠ t ∧ u ∈ waiting q') := by
    intro q' u hu
    by_cases hq' : q' = q
    · rw [hq',Function.update_self,Finset.mem_insert] at hu
      rcases hu with hu | hu
      · exact Or.inl ⟨hu,hq'⟩
      · exact Or.inr ⟨fun he => hn q (he ▸ hu),hq' ▸ hu⟩
    · rw [hother q' hq'] at hu
      exact Or.inr ⟨fun he => hn q' (he ▸ hu),hu⟩
  refine ⟨fun q' u hu => ?_,fun q' u hu => ?_,fun q' u ha hy => ?_⟩
  · rcases hmem q' u hu with ⟨rfl,-⟩ | ⟨hut,hu⟩
    · exact ht
    · rw [(hs u hut).1,(hs u hut).2]
      exact h.sleeps q' u hu
  · rcases hmem q' u hu with ⟨rfl,rfl⟩ | ⟨hut,hu⟩
    · exact Function.update_self _ _ _
    · rw [Function.update_of_ne hut]
      exact h.reason q' u hu
  · by_cases hut : u = t
    · subst hut
      rw [Function.update_self,Option.some.injEq] at hy
      rw [← hy,Function.update_self]
      exact Finset.mem_insert_self _ _
    · rw [Function.update_of_ne hut] at hy
      have hu := h.listed q' u ((hs u hut).1.mp ha) hy
      by_cases hq' : q' = q
      · rw [hq',Function.update_self]
        exact Finset.mem_insert_of_mem (hq' ▸ hu)
      · rwa [hother q' hq']

theorem dequeue (h : Consistent asleep gone why waiting) (hm : t ∈ waiting q)
    (ht : ¬ asleep' t) (hs : ∀ u, u ≠ t → (asleep' u ↔ asleep u) ∧ (gone' u ↔ gone u)) :
    Consistent asleep' gone' why (Function.update waiting q ((waiting q).erase t)) := by
  have hmem : ∀ q' u, u ∈ Function.update waiting q ((waiting q).erase t) q' ↔
      u ≠ t ∧ u ∈ waiting q' := by
    intro q' u
    by_cases hq' : q' = q
    · rw [hq',Function.update_self,Finset.mem_erase]
    · rw [Function.update_of_ne hq']
      refine ⟨fun hu => ⟨?_,hu⟩,And.right⟩
      rintro rfl
      exact hq' (h.unique hu hm)
  refine ⟨fun q' u hu => ?_,fun q' u hu => ?_,fun q' u ha hy => ?_⟩
  · obtain ⟨hut,hu⟩ := (hmem q' u).mp hu
    rw [(hs u hut).1,(hs u hut).2]
    exact h.sleeps q' u hu
  · exact h.reason q' u ((hmem q' u).mp hu).2
  · have hut : u ≠ t := by
      rintro rfl
      exact ht ha
    exact (hmem q' u).mpr ⟨hut,h.listed q' u ((hs u hut).1.mp ha) hy⟩

end Consistent
end ComplexOS.WaitQueues
