import ComplexOS.Library.Rings
import Mathlib.Logic.Relation

/-! # Walks along links

What is reached from a slot along `next` need not form a ring: a walk may lead into one
from outside. Slots are linked in and out by changing the link of one slot before them.
-/
namespace ComplexOS.SlotChains
variable {α : Type*}

def Reach (next : α → α) : α → α → Prop := Relation.TransGen (fun a b => next a = b)

variable {next : α → α} {a b c e f i j t u v : α} {l pre : List α} {again : α → Option Bool}
  {n : ℕ}

namespace Reach

theorem of_eq (h : next c = t) : Reach next c t := Relation.TransGen.single h

theorem single (next : α → α) (c : α) : Reach next c (next c) := of_eq rfl

theorem tail (h : Reach next c t) : Reach next c (next t) := Relation.TransGen.tail h rfl

theorem trans (h : Reach next c t) (h' : Reach next t u) : Reach next c u :=
  Relation.TransGen.trans h h'

theorem path (h : Reach next c t) : ∃ pre, Path next (next c) pre t := by
  induction h using Relation.TransGen.head_induction_on with
  | single h => exact ⟨[],h⟩
  | head h _ ih =>
    obtain ⟨pre,hp⟩ := ih
    exact ⟨_::pre,h,hp⟩

end Reach

theorem Path.reach (h : Path next (next c) l t) : Reach next c t ∧ ∀ i ∈ l, Reach next c i := by
  induction l generalizing c with
  | nil =>
    obtain rfl : next c = t := h
    exact ⟨Reach.single next c,by simp⟩
  | cons x l ih =>
    obtain ⟨rfl,h⟩ := h
    obtain ⟨ht,hl⟩ := ih h
    have hc := Reach.single next c
    refine ⟨hc.trans ht,fun i hi => ?_⟩
    rcases List.mem_cons.mp hi with rfl | hi
    · exact hc
    · exact hc.trans (hl i hi)

theorem Path.next_mem {d : α} (h : Path next d l t) (hi : i ∈ l) : next i ∈ l++[t] := by
  induction l generalizing d with
  | nil => cases hi
  | cons x l ih =>
    obtain ⟨rfl,h⟩ := h
    rcases List.mem_cons.mp hi with rfl | hi
    · cases l with
      | nil =>
        obtain rfl : next i = t := h
        simp
      | cons y l =>
        rw [h.1]
        simp
    · exact List.mem_cons_of_mem _ (ih h hi)

/-- A walk back to where it has begun has come to all that is reached. -/
theorem Path.closed (h : Path next (next c) l c) (hu : Reach next c u) : u ∈ l++[c] := by
  have hfirst : next c ∈ l++[c] := by
    cases l with
    | nil =>
      have hc : next c = c := h
      rw [hc]
      exact List.mem_singleton_self c
    | cons y l =>
      rw [h.1]
      exact List.mem_cons_self
  induction hu with
  | single hu => exact hu ▸ hfirst
  | tail _ hu ih =>
    subst hu
    rcases List.mem_append.mp ih with ih | ih
    · exact h.next_mem ih
    · rw [List.mem_singleton] at ih
      rw [ih]
      exact hfirst

/-- A walk that comes back to a slot may leave out what lies between. -/
theorem Path.shorten (h : Path next c pre t) :
    ∃ l, Path next c l t ∧ (l++[t]).Nodup ∧ ∀ i ∈ l, i ∈ pre := by
  classical
  induction pre generalizing c with
  | nil => exact ⟨[],h,List.nodup_singleton t,fun _ hi => hi⟩
  | cons x pre ih =>
    obtain ⟨rfl,h⟩ := h
    obtain ⟨l,hl,hnd,hsub⟩ := ih h
    by_cases hc : c ∈ l++[t]
    swap
    · refine ⟨c::l,⟨rfl,hl⟩,List.nodup_cons.mpr ⟨hc,hnd⟩,fun i hi => ?_⟩
      rcases List.mem_cons.mp hi with rfl | hi
      · exact List.mem_cons_self
      · exact List.mem_cons_of_mem _ (hsub i hi)
    rcases List.mem_append.mp hc with hc | hc
    · obtain ⟨xs,ys,rfl⟩ := List.append_of_mem hc
      obtain ⟨m,-,hm,hy⟩ := path_append.mp hl
      refine ⟨c::ys,⟨rfl,hy⟩,?_,fun i hi => ?_⟩
      · rw [List.append_assoc] at hnd
        exact (List.nodup_append.mp hnd).2.1
      · exact List.mem_cons_of_mem _ (hsub i (List.mem_append_right _ hi))
    · rw [List.mem_singleton] at hc
      exact ⟨[],hc,List.nodup_singleton t,by simp⟩

/-! ### Loops over a walk -/

/-- A loop that has a slot to stop at ahead of it stops at the first one, within as many
rounds as there are slots. -/
theorem doWhile_stops {next : ℤ → ℤ} {c t : ℤ} {again : ℤ → Option Bool} {m : ℕ} {P : ℤ → Prop}
    [DecidablePred P] (hin : ∀ u, Reach next c u → 0 ≤ u ∧ u < m)
    (ha : ∀ u, Reach next c u → again u = some (decide (¬ P u))) (ht : Reach next c t)
    (hP : P t) : ∃ l j, Path next (next c) l j ∧ (∀ i ∈ l, ¬ P i) ∧ P j ∧
      doWhile next again m c = some j := by
  obtain ⟨pre,hp⟩ := ht.path
  obtain ⟨j,hj,xs,ys,hl,hxs⟩ := exists_first (P := P) (l := pre++[t]) ⟨t,by simp,hP⟩
  have hall := path_snoc.mpr ⟨hp,rfl⟩
  rw [hl] at hall
  obtain ⟨m',hx,hm,-⟩ := path_append.mp hall
  subst hm
  obtain ⟨l,hl,hnd,hsub⟩ := hx.shorten
  obtain ⟨hreach,hmem⟩ := hl.reach
  have hlen := length_le_slots hnd (fun i hi => by
    rcases List.mem_append.mp hi with hi | hi
    · exact hin i (hmem i hi)
    · rw [List.mem_singleton.mp hi]
      exact hin _ hreach)
  rw [List.length_append,List.length_singleton] at hlen
  refine ⟨l,m',hl,fun i hi => hxs i (hsub i hi),hj,
    doWhile_path (path_snoc.mpr ⟨hl,rfl⟩) (fun i hi => ?_) ?_ hlen⟩
  · rw [ha i (hmem i hi)]
    simpa using hxs i (hsub i hi)
  · rw [ha _ hreach]
    simpa using hj

/-- A loop with nothing to stop at goes on for ever. -/
theorem doWhile_forever (h : ∀ u, Reach next c u → again u = some true) (n : ℕ) :
    doWhile next again n c = none := by
  cases hd : doWhile next again n c with
  | none => rfl
  | some j =>
    obtain ⟨hj,hstop⟩ := doWhile_mem (S := Reach next c) (fun _ hi => hi.tail)
      (Reach.single next c) hd
    rw [h j hj] at hstop
    cases hstop

/-! ### Linking in and out -/

variable [DecidableEq α]

/-- Behind `c` the new slot is reached, and what has been. -/
theorem Reach.of_insert
    (h : Reach (Function.update (Function.update next c f) f (next c)) c t) :
    t = f ∨ Reach next c t := by
  have hedge : ∀ x, Function.update (Function.update next c f) f (next c) x =
      if x = f then next c else if x = c then f else next x := by
    intro x
    simp only [Function.update_apply]
  induction h with
  | single h =>
    rw [hedge] at h
    split_ifs at h with hf hc
    · exact Or.inr (h ▸ Reach.single next c)
    · exact Or.inl h.symm
    · exact absurd rfl hc
  | tail _ h ih =>
    rw [hedge] at h
    split_ifs at h with hf hc
    · exact Or.inr (h ▸ Reach.single next c)
    · exact Or.inl h.symm
    · rcases ih with rfl | ih
      · exact absurd rfl hf
      · exact Or.inr (h ▸ ih.tail)

/-- Nothing that was ahead of a visited slot is lost. -/
theorem Reach.insert (hf : f ≠ c) (hcf : ¬ Reach next c f) (hu : u = c ∨ Reach next c u)
    (h : Reach next u t) :
    Reach (Function.update (Function.update next c f) f (next c)) u t := by
  have hstep : ∀ x, x = c ∨ Reach next c x →
      Reach (Function.update (Function.update next c f) f (next c)) x (next x) := by
    intro x hx
    have hxf : x ≠ f := by
      rintro rfl
      rcases hx with hx | hx
      · exact hf hx
      · exact hcf hx
    by_cases hxc : x = c
    · subst hxc
      have h1 : Function.update (Function.update next x f) f (next x) x = f := by
        rw [Function.update_of_ne hxf,Function.update_self]
      have h2 : Function.update (Function.update next x f) f (next x) f = next x :=
        Function.update_self _ _ _
      exact Relation.TransGen.tail (Relation.TransGen.single h1) h2
    · refine Relation.TransGen.single ?_
      rw [Function.update_of_ne hxf,Function.update_of_ne hxc]
  induction h with
  | single h => exact h ▸ hstep u hu
  | tail hb h ih =>
    refine ih.trans (h ▸ hstep _ (Or.inr ?_))
    rcases hu with rfl | hu
    · exact hb
    · exact hu.trans hb

theorem Reach.of_unlink (ha : next a = t) (h : Reach (Function.update next a (next t)) u v) :
    Reach next u v := by
  have hstep : ∀ x, Reach next x (Function.update next a (next t) x) := by
    intro x
    by_cases hx : x = a
    · subst hx
      rw [Function.update_self]
      have hr := (Reach.single next x).tail
      rwa [ha] at hr
    · rw [Function.update_of_ne hx]
      exact Reach.single next x
  induction h with
  | single h => exact h ▸ hstep u
  | tail _ h ih => exact ih.trans (h ▸ hstep _)

/-- All but the slot that is linked out is still ahead. -/
theorem Reach.unlink (ha : next a = t) (hv : v ≠ t) (h : Reach next u v) :
    Reach (Function.update next a (next t)) u v := by
  have hstep : ∀ x, x ≠ a → Function.update next a (next t) x = next x :=
    fun x hx => Function.update_of_ne hx _ _
  have hskip : ∀ w, Reach next u w → Reach (Function.update next a (next t)) u w ∨
      (w = t ∧ (u = a ∨ Reach (Function.update next a (next t)) u a)) := by
    intro w hw
    induction hw with
    | single h =>
      by_cases hua : u = a
      · exact Or.inr ⟨by rw [← h,hua,ha],Or.inl hua⟩
      · exact Or.inl (Relation.TransGen.single ((hstep u hua).trans h))
    | @tail x w hx h ih =>
      rcases ih with ih | ⟨hxt,ih⟩
      · by_cases hxa : x = a
        · subst hxa
          exact Or.inr ⟨h.symm.trans ha,Or.inr ih⟩
        · exact Or.inl (Relation.TransGen.tail ih ((hstep x hxa).trans h))
      · have hnext : Function.update next a (next t) a = w := by
          rw [Function.update_self,← hxt,h]
        rcases ih with rfl | ih
        · exact Or.inl (Relation.TransGen.single hnext)
        · exact Or.inl (Relation.TransGen.tail ih hnext)
  rcases hskip v h with h | ⟨ht,-⟩
  · exact h
  · exact absurd ht hv

/-- A slot that only `a` points at is not reached any more. -/
theorem Reach.not_unlink (ha : next a = t) (ht : next t ≠ t)
    (honly : ∀ x, (x = c ∨ Reach next c x) → next x = t → x = a) :
    ¬ Reach (Function.update next a (next t)) c t := by
  intro h
  have hlast : ∃ x, (x = c ∨ Reach next c x) ∧ Function.update next a (next t) x = t := by
    cases h with
    | single h => exact ⟨c,Or.inl rfl,h⟩
    | tail hx h => exact ⟨_,Or.inr (Reach.of_unlink ha hx),h⟩
  obtain ⟨x,hx,hxt⟩ := hlast
  by_cases hxa : x = a
  · rw [hxa,Function.update_self] at hxt
    exact ht hxt
  · rw [Function.update_of_ne hxa] at hxt
    exact hxa (honly x hx hxt)

end ComplexOS.SlotChains
