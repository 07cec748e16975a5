import Mathlib.Data.List.Basic
import Mathlib.Algebra.Order.Ring.Nat

/-! # Extents on a line

Things that take up places from `lo` on and before `hi`, and the search for the first gap of
`n` places. Looking only in front of each extent of a sorted line is enough.
-/
namespace ComplexOS.Extents
variable {α : Type*} (lo hi : α → ℕ)

def Apart (a b : α) : Prop := hi a ≤ lo b ∨ hi b ≤ lo a

/-- Nothing lies in the `n` places from `b` on. -/
def Clear (as : List α) (b n : ℕ) : Prop := ∀ a ∈ as, hi a ≤ b ∨ b+n ≤ lo a

instance (as : List α) (b n : ℕ) : Decidable (Clear lo hi as b n) :=
  inferInstanceAs (Decidable (∀ a ∈ as, _))

def lowest (n limit p : ℕ) (as : List α) : Option ℕ :=
  (List.range limit).find? (fun b => decide (p ≤ b ∧ b+n ≤ limit ∧ Clear lo hi as b n))

def search (n limit : ℕ) : List α → ℕ → Option ℕ
  | [], p => if p+n ≤ limit then some p else none
  | a::as, p => if p+n ≤ lo a then some p else search n limit as (hi a)

def Line : ℕ → List α → Prop
  | _, [] => True
  | p, a::as => p ≤ lo a ∧ lo a ≤ hi a ∧ Line (hi a) as

variable {lo hi} {n limit p b c : ℕ} {as bs : List α} {a : α}

theorem Clear.congr (h : Clear lo hi as b n) (hs : ∀ a ∈ bs, a ∈ as) : Clear lo hi bs b n :=
  fun a ha => h a (hs a ha)

/-- What lies in a gap is apart from all the others. -/
theorem Clear.apart (h : Clear lo hi as b n) (hl : lo a = b) (hh : hi a = b+n) :
    ∀ x ∈ as, Apart lo hi a x := by
  intro x hx
  rcases h x hx with hle | hle
  · exact Or.inr (by rwa [hl])
  · exact Or.inl (by rwa [hh])

theorem Line.le (h : Line lo hi p as) : ∀ a ∈ as, p ≤ lo a := by
  induction as generalizing p with
  | nil => simp
  | cons a as ih =>
    obtain ⟨hp,hle,hrest⟩ := h
    intro x hx
    rcases List.mem_cons.mp hx with rfl | hx
    · exact hp
    · exact (hp.trans hle).trans (ih hrest x hx)

theorem search_some (h : Line lo hi p as) (hb : search lo hi n limit as p = some b)
    (hl : ∀ a ∈ as, lo a ≤ limit) : p ≤ b ∧ b+n ≤ limit ∧ Clear lo hi as b n := by
  induction as generalizing p with
  | nil =>
    obtain ⟨hle,hb⟩ := Option.ite_none_right_eq_some.mp hb
    obtain rfl := Option.some.inj hb
    exact ⟨le_rfl,hle,fun a ha => (by cases ha)⟩
  | cons a as ih =>
    obtain ⟨hp,hle,hrest⟩ := h
    rw [search] at hb
    split at hb
    · rename_i hfit
      obtain rfl := Option.some.inj hb
      refine ⟨le_rfl,hfit.trans (hl a List.mem_cons_self),fun x hx => Or.inr ?_⟩
      rcases List.mem_cons.mp hx with rfl | hx
      · exact hfit
      · exact (hfit.trans hle).trans (hrest.le x hx)
    · obtain ⟨hpb,hlim,hclear⟩ := ih hrest hb (fun x hx => hl x (List.mem_cons_of_mem _ hx))
      refine ⟨(hp.trans hle).trans hpb,hlim,fun x hx => ?_⟩
      rcases List.mem_cons.mp hx with rfl | hx
      · exact Or.inl hpb
      · exact hclear x hx

/-- No gap is passed over. -/
theorem search_le (h : Line lo hi p as) (hc : Clear lo hi as c n) (hp : p ≤ c)
    (hl : c+n ≤ limit) : ∃ b, search lo hi n limit as p = some b ∧ b ≤ c := by
  induction as generalizing p with
  | nil => exact ⟨p,if_pos (by omega),hp⟩
  | cons a as ih =>
    obtain ⟨-,-,hrest⟩ := h
    rw [search]
    split
    · exact ⟨p,rfl,hp⟩
    · refine ih hrest (hc.congr (fun x hx => List.mem_cons_of_mem _ hx)) ?_
      rcases hc a List.mem_cons_self with hle | hle
      · exact hle
      · omega

theorem lowest_some : lowest lo hi n limit p as = some b ↔ b < limit ∧ (p ≤ b ∧ b+n ≤ limit ∧
    Clear lo hi as b n) ∧ ∀ c < b, ¬ (p ≤ c ∧ c+n ≤ limit ∧ Clear lo hi as c n) := by
  rw [lowest,List.find?_range_eq_some]
  simp only [decide_eq_true_eq,List.mem_range,Bool.not_eq_eq_eq_not,Bool.not_true,
    decide_eq_false_iff_not]
  tauto

theorem lowest_none (hn : 0 < n) : lowest lo hi n limit p as = none ↔
    ∀ b, p ≤ b → b+n ≤ limit → ¬ Clear lo hi as b n := by
  rw [lowest,List.find?_eq_none]
  simp only [decide_eq_true_eq,List.mem_range,not_and]
  exact ⟨fun h b hp hb => h b (by omega) hp hb,fun h b _ hp hb => h b hp hb⟩

theorem lowest_congr (h : ∀ a, a ∈ as ↔ a ∈ bs) :
    lowest lo hi n limit p as = lowest lo hi n limit p bs := by
  have hclear : ∀ b, Clear lo hi as b n ↔ Clear lo hi bs b n :=
    fun b => ⟨fun hc => hc.congr (fun a ha => (h a).mpr ha),fun hc => hc.congr (fun a ha => (h a).mp ha)⟩
  simp only [lowest,hclear]

theorem lowest_map {β : Type*} {g : β → α} {xs : List β} : lowest lo hi n limit p (xs.map g) =
    lowest (fun x => lo (g x)) (fun x => hi (g x)) n limit p xs := by
  have hclear : ∀ b, Clear lo hi (xs.map g) b n ↔
      Clear (fun x => lo (g x)) (fun x => hi (g x)) xs b n := fun b => List.forall_mem_map
  simp only [lowest,hclear]

/-- The search along the line finds the lowest gap. -/
theorem search_eq (h : Line lo hi p as) (hn : 0 < n) (hl : ∀ a ∈ as, lo a ≤ limit) :
    search lo hi n limit as p = lowest lo hi n limit p as := by
  cases hs : search lo hi n limit as p with
  | none =>
    refine ((lowest_none hn).mpr (fun b hp hb hc => ?_)).symm
    obtain ⟨b',hb',-⟩ := search_le h hc hp hb
    rw [hs] at hb'
    cases hb'
  | some b =>
    have hb := search_some h hs hl
    refine (lowest_some.mpr ⟨by omega,hb,fun c hcb hc => ?_⟩).symm
    obtain ⟨b',hb',hle⟩ := search_le h hc.2.2 hc.1 hc.2.1
    rw [hs] at hb'
    obtain rfl := Option.some.inj hb'
    omega

theorem line_of_sorted (hs : as.Pairwise (fun a b => lo a ≤ lo b))
    (ha : as.Pairwise (Apart lo hi)) (hlt : ∀ a ∈ as, lo a < hi a) (hp : ∀ a ∈ as, p ≤ lo a) :
    Line lo hi p as := by
  induction as generalizing p with
  | nil => trivial
  | cons a as ih =>
    obtain ⟨hfirst,hs⟩ := List.pairwise_cons.mp hs
    obtain ⟨hapart,ha⟩ := List.pairwise_cons.mp ha
    have hmem := List.mem_cons_self (a := a) (l := as)
    refine ⟨hp a hmem,(hlt a hmem).le,ih hs ha (fun x hx => hlt x (List.mem_cons_of_mem _ hx)) ?_⟩
    intro x hx
    have hx' := hlt x (List.mem_cons_of_mem _ hx)
    have := hfirst x hx
    rcases hapart x hx with hle | hle <;> omega

end ComplexOS.Extents
