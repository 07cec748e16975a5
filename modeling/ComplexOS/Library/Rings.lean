import ComplexOS.Library.SlotChains
import Mathlib.Data.Int.Interval
import Mathlib.Data.List.Nodup

/-! # Rings of slots

Slots whose `next` links lead once around and back. A ring is entered at one of its
slots, and `rest` lists the others in the order in which the links visit them.
-/
namespace ComplexOS.SlotChains
variable {α : Type*}

structure Ring (next : α → α) (c : α) (rest : List α) : Prop where
  nodup : (c::rest).Nodup
  path : Path next (next c) rest c

/-- `do c = next c; while (again c)`, at most `n` times. The test may be undefined. -/
def doWhile (next : α → α) (again : α → Option Bool) : ℕ → α → Option α
  | 0, _ => none
  | n+1, c => (again (next c)).bind (fun b =>
    if b then doWhile next again n (next c) else some (next c))

def First (P : α → Prop) (l : List α) (j : α) : Prop :=
  P j ∧ ∃ pre post, l = pre++j::post ∧ ∀ i ∈ pre, ¬ P i

variable {next : α → α} {c d e f j : α} {rest xs ys pre post : List α}
  {again : α → Option Bool} {n : ℕ}

namespace Ring

/-- The order in which a walk that starts behind `c` visits the ring: `c` comes last. -/
theorem order (h : Ring next c rest) : Path next (next c) (rest++[c]) (next c) :=
  path_snoc.mpr ⟨h.path,rfl⟩

theorem order_nodup (h : Ring next c rest) : (rest++[c]).Nodup :=
  (List.perm_append_singleton c rest).nodup_iff.mpr h.nodup

theorem single (h : next c = c) : Ring next c [] := ⟨List.nodup_singleton c,h⟩

theorem next_eq (h : Ring next c []) : next c = c := h.path

/-- The same ring, entered at another of its slots. -/
theorem turn (h : Ring next c (xs++d::ys)) : Ring next d (ys++c::xs) := by
  obtain ⟨m,hx,hm,hy⟩ := path_append.mp h.path
  rw [hm] at hx
  refine ⟨?_,path_append.mpr ⟨c,hy,rfl,hx⟩⟩
  have hperm : (d::(ys++c::xs)).Perm (c::(xs++d::ys)) := by
    have hcomm : ((d::ys)++(c::xs)).Perm ((c::xs)++(d::ys)) := List.perm_append_comm
    simpa using hcomm
  exact hperm.nodup_iff.mpr h.nodup

theorem enter (h : Ring next c rest) (hd : d ∈ c::rest) :
    ∃ rest', Ring next d rest' ∧ (d::rest').Perm (c::rest) := by
  rcases List.mem_cons.mp hd with rfl | hd
  · exact ⟨rest,h,List.Perm.refl _⟩
  · obtain ⟨xs,ys,rfl⟩ := List.append_of_mem hd
    have hcomm : ((d::ys)++(c::xs)).Perm ((c::xs)++(d::ys)) := List.perm_append_comm
    exact ⟨_,h.turn,by simpa using hcomm⟩

theorem next_mem (h : Ring next c rest) {i : α} (hi : i ∈ c::rest) : next i ∈ c::rest := by
  obtain ⟨rest',h',hp⟩ := h.enter hi
  rw [← hp.mem_iff]
  cases rest' with
  | nil => rw [h'.next_eq]; exact List.mem_cons_self
  | cons j js => rw [h'.path.1]; simp

/-- A slot that points at itself is the whole ring. -/
theorem alone (h : Ring next c rest) (hc : next c = c) : rest = [] := by
  cases rest with
  | nil => rfl
  | cons j ys =>
    have hj : c = j := hc.symm.trans h.path.1
    exact absurd (hj ▸ List.mem_cons_self) (List.nodup_cons.mp h.nodup).1

/-- What the slot behind `c` points at is still in the ring without it. -/
theorem skip_mem (h : Ring next c (j::ys)) : next j ∈ c::ys := by
  cases ys with
  | nil => simpa using h.path.2
  | cons k ks =>
    rw [h.path.2.1]
    simp

variable [DecidableEq α]

/-- A new slot is linked in behind `c`. -/
theorem insert (h : Ring next c rest) (hf : f ∉ c::rest) :
    Ring (Function.update (Function.update next c f) f (next c)) c (f::rest) := by
  have hcf : c ≠ f := fun he => hf (he ▸ List.mem_cons_self)
  have hc : c ∉ rest := (List.nodup_cons.mp h.nodup).1
  refine ⟨?_,?_,?_⟩
  · rw [List.mem_cons,not_or] at hf
    refine List.nodup_cons.mpr ⟨?_,List.nodup_cons.mpr ⟨hf.2,(List.nodup_cons.mp h.nodup).2⟩⟩
    rw [List.mem_cons,not_or]
    exact ⟨hcf,hc⟩
  · rw [Function.update_of_ne hcf,Function.update_self]
  · rw [Function.update_self]
    refine h.path.congr (fun i hi => ?_)
    have hif : i ≠ f := fun he => hf (he ▸ List.mem_cons_of_mem _ hi)
    have hic : i ≠ c := fun he => hc (he ▸ hi)
    rw [Function.update_of_ne hif,Function.update_of_ne hic]

/-- The slot behind `c` is linked out. -/
theorem remove (h : Ring next c (j::ys)) : Ring (Function.update next c (next j)) c ys := by
  have hc : c ∉ j::ys := (List.nodup_cons.mp h.nodup).1
  refine ⟨?_,?_⟩
  · exact h.nodup.sublist ((List.sublist_cons_self j ys).cons_cons c)
  · rw [Function.update_self]
    refine h.path.2.congr (fun i hi => Function.update_of_ne (fun he => hc ?_) _ _)
    exact he ▸ List.mem_cons_of_mem _ hi

/-- The slot `d` is linked out from the slot before it, and the others keep their order. -/
theorem erase (h : Ring next c (xs++d::ys)) (ha : c::xs = pre++[j]) :
    Ring (Function.update next j (next d)) c (xs++ys) := by
  cases pre with
  | nil =>
    obtain ⟨rfl,rfl⟩ := List.cons.inj ha
    exact h.remove
  | cons b pre =>
    obtain ⟨rfl,rfl⟩ := List.cons.inj ha
    have hturn : Ring next j (d::(ys++c::pre)) := by
      have hcycle : Ring next c (pre++j::(d::ys)) := by simpa using h
      exact hcycle.turn
    have hback := hturn.remove.turn
    simpa using hback

/-- The slot the ring is entered at is linked out, and the ring is entered behind it. -/
theorem leave (h : Ring next c (f::xs)) (ha : f::xs = pre++[j]) :
    Ring (Function.update next j (next c)) f xs := by
  have hturn : Ring next j (c::pre) := by
    rw [ha] at h
    exact h.turn
  have hskip := hturn.remove
  cases pre with
  | nil =>
    obtain ⟨rfl,rfl⟩ := List.cons.inj ha
    exact hskip
  | cons b pre =>
    obtain ⟨rfl,rfl⟩ := List.cons.inj ha
    have hskip : Ring (Function.update next j (next c)) j ([]++f::pre) := hskip
    exact hskip.turn

end Ring

theorem doWhile_path (hp : Path next (next c) (pre++j::post) e)
    (hpre : ∀ i ∈ pre, again i = some true) (hj : again j = some false) (hn : pre.length < n) :
    doWhile next again n c = some j := by
  induction pre generalizing c n with
  | nil =>
    obtain ⟨m,rfl⟩ := Nat.exists_eq_add_of_lt hn
    rw [List.nil_append,path_cons] at hp
    rw [doWhile,hp.1,hj,Option.bind_some,if_neg Bool.false_ne_true]
  | cons i pre ih =>
    obtain ⟨m,rfl⟩ := Nat.exists_eq_succ_of_ne_zero (Nat.ne_zero_of_lt hn)
    rw [List.cons_append,path_cons] at hp
    rw [doWhile,hp.1,hpre i List.mem_cons_self,Option.bind_some,if_pos rfl]
    exact ih hp.2 (fun k hk => hpre k (List.mem_cons_of_mem _ hk)) (Nat.lt_of_succ_lt_succ hn)

/-- A walk stays in every set that the links do not leave. -/
theorem doWhile_mem {S : α → Prop} (hS : ∀ i, S i → S (next i)) (hc : S (next c))
    (h : doWhile next again n c = some j) : S j ∧ again j = some false := by
  induction n generalizing c with
  | zero => cases h
  | succ n ih =>
    rw [doWhile,Option.bind_eq_some_iff] at h
    obtain ⟨b,hb,h⟩ := h
    split at h
    · exact ih (hS _ hc) h
    · rename_i hfalse
      cases h
      rw [Bool.not_eq_true] at hfalse
      exact ⟨hc,hfalse ▸ hb⟩

variable {P : α → Prop}

theorem exists_first {l : List α} (hx : ∃ i ∈ l, P i) : ∃ j, First P l j := by
  classical
  obtain ⟨k,hk,hPk⟩ := hx
  have hfind : (l.find? (fun i => decide (P i))).isSome :=
    List.find?_isSome.mpr ⟨k,hk,decide_eq_true hPk⟩
  obtain ⟨j,hj⟩ := Option.isSome_iff_exists.mp hfind
  obtain ⟨hP,pre,post,hl,hpre⟩ := List.find?_eq_some_iff_append.mp hj
  exact ⟨j,by simpa using hP,pre,post,hl,fun i hi => by simpa using hpre i hi⟩

theorem mem_of_order (hl : rest++[c] = pre++j::post) {i : α} (hi : i ∈ pre++j::post) :
    i ∈ c::rest := by
  rw [← hl] at hi
  simpa [or_comm] using hi

theorem pre_length (hl : rest++[c] = pre++j::post) : pre.length ≤ rest.length := by
  have hlen := congrArg List.length hl
  simp only [List.length_append,List.length_cons,List.length_nil] at hlen
  omega

theorem First.mem (h : First P (rest++[c]) j) : j ∈ c::rest := by
  obtain ⟨-,pre,post,hl,-⟩ := h
  exact mem_of_order hl (List.mem_append_right _ List.mem_cons_self)

namespace Ring

/-- `c` comes last in the walk, so not before any other slot. -/
theorem pre_ne (h : Ring next c rest) (hl : rest++[c] = pre++j::post) {i : α} (hi : i ∈ pre) :
    i ≠ c := by
  rintro rfl
  have hnd := h.order_nodup
  have hlast : (pre++j::post).getLast? = some i := by rw [← hl]; simp
  rw [hl] at hnd
  have hmem : i ∈ j::post := by
    rw [List.getLast?_append] at hlast
    exact List.mem_of_getLast? (by simpa using hlast)
  exact (List.disjoint_of_nodup_append hnd) hi hmem

variable [DecidablePred P] [DecidableEq α]

/-- A walk that stops at the first slot of a kind, or when it is back at `c`. -/
theorem walk_some (h : Ring next c rest) (hn : rest.length < n)
    (ha : ∀ i ∈ c::rest, again i = some (decide (¬ P i ∧ c ≠ i)))
    (hj : First P (rest++[c]) j) : doWhile next again n c = some j := by
  obtain ⟨hP,pre,post,hl,hpre⟩ := hj
  refine doWhile_path (hl ▸ h.order) (fun i hi => ?_) ?_ ((pre_length hl).trans_lt hn)
  · rw [ha i (mem_of_order hl (List.mem_append_left _ hi))]
    simpa using ⟨hpre i hi,(h.pre_ne hl hi).symm⟩
  · rw [ha j (mem_of_order hl (List.mem_append_right _ List.mem_cons_self))]
    simp [hP]

theorem walk_none (h : Ring next c rest) (hn : rest.length < n)
    (ha : ∀ i ∈ c::rest, again i = some (decide (¬ P i ∧ c ≠ i)))
    (hx : ∀ i ∈ c::rest, ¬ P i) : doWhile next again n c = some c := by
  refine doWhile_path h.order (fun i hi => ?_) ?_ hn
  · have hic : c ≠ i := fun he => (List.nodup_cons.mp h.nodup).1 (he ▸ hi)
    rw [ha i (List.mem_cons_of_mem _ hi)]
    simpa using ⟨hx i (List.mem_cons_of_mem _ hi),hic⟩
  · rw [ha c List.mem_cons_self]
    simp

end Ring

/-- A list of distinct slots is no longer than the table. -/
theorem length_le_slots {l : List ℤ} {m : ℕ} (hl : l.Nodup) (h : ∀ i ∈ l, 0 ≤ i ∧ i < m) :
    l.length ≤ m := by
  have hsub : l.toFinset ⊆ Finset.Ico 0 (m : ℤ) := by
    intro i hi
    exact Finset.mem_Ico.mpr (h i (List.mem_toFinset.mp hi))
  have hcard := Finset.card_le_card hsub
  rwa [List.toFinset_card_of_nodup hl,Int.card_Ico,sub_zero,Int.toNat_natCast] at hcard

end ComplexOS.SlotChains
