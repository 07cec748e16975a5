import ComplexOS.Library.Rings

/-! # Turns

How far a walk along the links is from a slot: the slots that it visits before. Taking one of
them as the new start makes the list shorter, a new slot behind the start makes it longer by
one, and linking a slot out makes it no longer.
-/
namespace ComplexOS.SlotChains
variable {α : Type*}

/-- From behind `c` the links lead over `pre` to `j`, which they have not visited before. -/
structure Leads (next : α → α) (c : α) (pre : List α) (j : α) : Prop where
  path : Path next (next c) pre j
  fresh : j ∉ pre

variable {next next' : α → α} {c e f j k b a : α} {pre xs ys rest : List α}

/-- Two ways to the same slot that do not go past it are one. -/
theorem path_unique (hx : Path next c xs j) (hy : Path next c ys j) (hjx : j ∉ xs) (hjy : j ∉ ys) :
    xs = ys := by
  induction xs generalizing c ys with
  | nil =>
    cases ys with
    | nil => rfl
    | cons y ys =>
      obtain rfl := hx
      exact absurd (hy.1 ▸ List.mem_cons_self) hjy
  | cons x xs ih =>
    cases ys with
    | nil =>
      obtain rfl := hy
      exact absurd (hx.1 ▸ List.mem_cons_self) hjx
    | cons y ys =>
      obtain ⟨rfl,hx⟩ := hx
      obtain ⟨rfl,hy⟩ := hy
      have hrest := ih hx hy (fun h => hjx (List.mem_cons_of_mem _ h))
        (fun h => hjy (List.mem_cons_of_mem _ h))
      rw [hrest]

theorem map_next (h : Path next (next c) pre e) : (c::pre).map next = pre++[e] := by
  induction pre generalizing c with
  | nil => exact congrArg (fun x => [x]) h
  | cons x pre ih =>
    obtain ⟨rfl,h⟩ := h
    rw [List.map_cons,ih h]
    rfl

/-- No two slots of a ring point at the same one. -/
theorem Ring.next_inj (h : Ring next c rest) (ha : a ∈ c::rest) (hb : b ∈ c::rest)
    (he : next a = next b) : a = b := by
  have hmap := map_next h.path
  have hnodup : ((c::rest).map next).Nodup := by
    rw [hmap]
    exact h.order_nodup
  exact List.inj_on_of_nodup_map hnodup ha hb he

theorem Ring.leads (h : Ring next c rest) (hj : j ∈ c::rest) :
    ∃ pre, Leads next c pre j ∧ pre.length ≤ rest.length ∧ ∀ i ∈ pre, i ∈ c::rest := by
  have hmem : j ∈ rest++[c] := by simpa [or_comm] using hj
  obtain ⟨pre,post,hl⟩ := List.append_of_mem hmem
  have hnodup := hl ▸ h.order_nodup
  obtain ⟨m,hpre,hm,-⟩ := path_append.mp (hl ▸ h.order)
  rw [hm] at hpre
  refine ⟨pre,⟨hpre,fun hx => ?_⟩,pre_length hl,
    fun i hi => mem_of_order hl (List.mem_append_left _ hi)⟩
  exact (List.disjoint_of_nodup_append hnodup) hx List.mem_cons_self

namespace Leads

theorem unique (h : Leads next c xs j) (h' : Leads next c ys j) : xs = ys :=
  path_unique h.path h'.path h.fresh h'.fresh

theorem congr (h : Leads next c pre j) (hn : ∀ i ∈ c::pre, next' i = next i) :
    Leads next' c pre j := by
  refine ⟨?_,h.fresh⟩
  rw [hn c List.mem_cons_self]
  exact h.path.congr (fun i hi => hn i (List.mem_cons_of_mem _ hi))

/-- From one of the slots before it the rest of the way is left. -/
theorem behind (h : Leads next c (xs++k::ys) j) : Leads next k ys j := by
  obtain ⟨m,-,-,hys⟩ := path_append.mp h.path
  exact ⟨hys,fun hj => h.fresh (List.mem_append_right _ (List.mem_cons_of_mem _ hj))⟩

theorem tail (h : Leads next c (k::ys) j) : Leads next k ys j :=
  ⟨h.path.2,fun hj => h.fresh (List.mem_cons_of_mem _ hj)⟩

theorem start_notMem (h : Leads next c pre j) : c ∉ pre := by
  intro hc
  obtain ⟨xs,ys,rfl⟩ := List.append_of_mem hc
  have hlen := congrArg List.length (h.unique h.behind)
  simp only [List.length_append,List.length_cons] at hlen
  omega

theorem nodup (h : Leads next c pre j) : pre.Nodup := by
  induction pre generalizing c with
  | nil => exact List.nodup_nil
  | cons x pre ih =>
    have hrest : Leads next x pre j := h.tail
    exact List.nodup_cons.mpr ⟨hrest.start_notMem,ih hrest⟩

/-- A slot before `j` is pointed at by the one before it only. -/
theorem next_inj (h : Leads next c pre j) (ha : a ∈ c::pre) (hb : b ∈ c::pre)
    (he : next a = next b) : a = b := by
  have hnodup : ((c::pre).map next).Nodup := by
    rw [map_next h.path]
    exact List.nodup_append.mpr ⟨h.nodup,List.nodup_singleton j,fun x hx y hy hxy =>
      h.fresh (by rw [← List.mem_singleton.mp hy,← hxy]; exact hx)⟩
  exact List.inj_on_of_nodup_map hnodup ha hb he

theorem next_mem (h : Leads next c pre j) (ha : a ∈ c::pre) : next a = j ∨ next a ∈ pre := by
  have hmem : next a ∈ (c::pre).map next := List.mem_map_of_mem ha
  rw [map_next h.path] at hmem
  exact (List.mem_append.mp hmem).symm.imp_left List.mem_singleton.mp

variable [DecidableEq α]

/-- A new slot is linked in behind `c`. -/
theorem insert (h : Leads next c pre j) (hf : f ∉ c::pre) (hj : f ≠ j) :
    Leads (Function.update (Function.update next c f) f (next c)) c (f::pre) j := by
  rw [List.mem_cons,not_or] at hf
  have hpre : Path (Function.update (Function.update next c f) f (next c)) (next c) pre j := by
    refine h.path.congr (fun i hi => ?_)
    have hif : i ≠ f := fun he => hf.2 (he ▸ hi)
    have hic : i ≠ c := fun he => h.start_notMem (he ▸ hi)
    rw [Function.update_of_ne hif,Function.update_of_ne hic]
  refine ⟨⟨?_,?_⟩,?_⟩
  · rw [Function.update_of_ne (Ne.symm hf.1),Function.update_self]
  · rw [Function.update_self]
    exact hpre
  · rw [List.mem_cons,not_or]
    exact ⟨hj.symm,h.fresh⟩

/-- A slot is linked out, from the only one that points at it. -/
theorem erase (h : Leads next c pre j) (hb : b ≠ j) (hab : next a = b)
    (hu : ∀ u ∈ c::pre, next u = b → u = a) :
    ∃ pre', Leads (Function.update next a (next b)) c pre' j ∧ pre'.length ≤ pre.length ∧
      ∀ i ∈ pre', i ∈ pre ∧ i ≠ b := by
  by_cases hmem : b ∈ pre
  · obtain ⟨xs,ys,rfl⟩ := List.append_of_mem hmem
    have hback := h.behind
    have hnodup := h.nodup
    obtain ⟨m,hxs,hm,hys⟩ := path_append.mp h.path
    obtain rfl | ⟨xs,k,rfl⟩ := List.eq_nil_or_concat xs
    · -- `b` is the first slot behind `c`
      obtain rfl : c = a := hu c List.mem_cons_self (hxs.trans hm)
      refine ⟨ys,⟨?_,hback.fresh⟩,by simp,fun i hi => ⟨List.mem_cons_of_mem _ hi,?_⟩⟩
      · rw [Function.update_self]
        refine hys.congr (fun i hi => Function.update_of_ne (fun he => ?_) _ _)
        exact h.start_notMem (he ▸ List.mem_cons_of_mem _ hi)
      · rintro rfl
        exact (List.nodup_cons.mp hnodup).1 hi
    · rw [List.concat_eq_append] at *
      have hk : next k = b := (path_snoc.mp (hm ▸ hxs)).2
      obtain rfl : k = a := hu k (by simp) hk
      have hpath : Path next (next c) (xs++k::b::ys) j := by simpa using h.path
      have hnodup' : (xs++k::b::ys).Nodup := by simpa using hnodup
      have hkx : k ∉ xs := fun hx =>
        (List.disjoint_of_nodup_append hnodup') hx List.mem_cons_self
      have hkb := (List.nodup_cons.mp (List.nodup_append.mp hnodup').2.1).1
      have hbmem := (List.nodup_cons.mp (List.nodup_cons.mp
        (List.nodup_append.mp hnodup').2.1).2).1
      have hck : c ≠ k := fun he => h.start_notMem (by rw [he]; simp)
      refine ⟨xs++k::ys,⟨?_,fun hj => h.fresh ?_⟩,by simp,fun i hi => ?_⟩
      · rw [Function.update_of_ne hck]
        exact hpath.skip hkx (fun hx => hkb (List.mem_cons_of_mem _ hx))
      · simp only [List.mem_append,List.mem_cons] at hj ⊢
        tauto
      · refine ⟨?_,?_⟩
        · simp only [List.mem_append,List.mem_cons] at hi ⊢
          tauto
        · rintro rfl
          obtain hx | hx := List.mem_append.mp hi
          · exact (List.disjoint_of_nodup_append hnodup') hx (by simp)
          · obtain rfl | hx := List.mem_cons.mp hx
            · exact hkb List.mem_cons_self
            · exact hbmem hx
  · have ha : a ∉ c::pre := by
      intro ha
      obtain he | hx := h.next_mem ha
      · exact hb (hab.symm.trans he)
      · exact hmem (hab ▸ hx)
    refine ⟨pre,h.congr (fun i hi => ?_),le_rfl,fun i hi => ⟨hi,fun he => hmem (he ▸ hi)⟩⟩
    have hia : i ≠ a := fun he => ha (he ▸ hi)
    rw [Function.update_of_ne hia]

end Leads

/-- A walk that would stop at `j` stops there or before. -/
theorem doWhile_leads {again : α → Option Bool} {n : ℕ} (h : Leads next c pre j)
    (hj : again j = some false) (hd : doWhile next again n c = some k) :
    again k = some false ∧ (k = j ∨ k ∈ pre) := by
  induction n generalizing c pre with
  | zero => cases hd
  | succ n ih =>
    rw [doWhile,Option.bind_eq_some_iff] at hd
    obtain ⟨x,hx,hd⟩ := hd
    cases x with
    | false =>
      obtain rfl := Option.some.inj hd
      refine ⟨hx,?_⟩
      cases pre with
      | nil => exact Or.inl h.path
      | cons y pre =>
        rw [h.path.1]
        exact Or.inr List.mem_cons_self
    | true =>
      cases pre with
      | nil =>
        obtain rfl := h.path
        rw [hj] at hx
        cases hx
      | cons y pre =>
        obtain rfl := h.path.1
        obtain ⟨hk,hmem⟩ := ih (h.tail) hd
        exact ⟨hk,hmem.imp_right (List.mem_cons_of_mem _)⟩

end ComplexOS.SlotChains
