import Mathlib.Data.List.Basic

/-! # Runs of a partial step function

A labelled step answers `none` where the step is not possible. A run folds the
steps of a label list; invariants may mention the labels already taken, and a
condition may be asked of every step along a run.
-/
namespace ComplexOS.Runs
variable {σ ℓ : Type*} (next : σ → ℓ → Option σ)

def run : σ → List ℓ → Option σ
  | s, [] => some s
  | s, l::ls => (next s l).bind (fun t => run t ls)

/-- Every step taken along the run meets `C` in the state it is taken from. -/
def Along (C : σ → ℓ → Prop) : σ → List ℓ → Prop
  | _, [] => True
  | s, l::ls => C s l ∧ ∀ t, next s l = some t → Along C t ls

/-- Every state that the run passes through, the first and the last included, meets `P`. -/
def Always (P : σ → Prop) (s : σ) (ls : List ℓ) : Prop :=
  ∀ pre t, pre <+: ls → run next s pre = some t → P t

/-- The sum of what the steps of the run count in the states they are taken from. -/
def total (f : σ → ℓ → ℕ) : σ → List ℓ → ℕ
  | _, [] => 0
  | s, l::ls => f s l+(match next s l with
    | none => 0
    | some t => total f t ls)

instance decidableAlong (C : σ → ℓ → Prop) [∀ s l, Decidable (C s l)] :
    ∀ s ls, Decidable (Along next C s ls)
  | _, [] => isTrue trivial
  | s, l::ls =>
    match h : next s l with
    | none => decidable_of_iff (C s l) ⟨fun hc => ⟨hc,fun t ht => by rw [h] at ht; cases ht⟩,And.left⟩
    | some u =>
      have := decidableAlong C u ls
      decidable_of_iff (C s l ∧ Along next C u ls)
        ⟨fun hc => ⟨hc.1,fun t ht => by rw [h] at ht; cases ht; exact hc.2⟩,
          fun hc => ⟨hc.1,hc.2 u h⟩⟩

def shown {α : Type*} (f : σ → ℓ → List α) : σ → List ℓ → List α
  | _, [] => []
  | s, l::ls => f s l++(match next s l with
    | none => []
    | some t => shown f t ls)

/-- Two machines in step: what the one shows are the steps of the other. -/
def drive {τ α : Type*} (next' : τ → α → Option τ) (f : σ → ℓ → List α) (x : σ × τ) (l : ℓ) :
    Option (σ × τ) :=
  (next x.1 l).bind (fun t => (run next' x.2 (f x.1 l)).map (fun b => (t,b)))

variable {next}

@[simp] theorem run_nil (s : σ) : run next s [] = some s := rfl

theorem run_cons {s u : σ} {l : ℓ} {ls : List ℓ} :
    run next s (l::ls) = some u ↔ ∃ t, next s l = some t ∧ run next t ls = some u := by
  simp only [run,Option.bind_eq_some_iff]

theorem run_append {s u : σ} {ls ls' : List ℓ} :
    run next s (ls++ls') = some u ↔ ∃ t, run next s ls = some t ∧ run next t ls' = some u := by
  induction ls generalizing s with
  | nil => simp
  | cons l ls ih =>
    simp only [List.cons_append,run_cons,ih]
    constructor
    · rintro ⟨t,ht,v,hv,hu⟩
      exact ⟨v,⟨t,ht,hv⟩,hu⟩
    · rintro ⟨v,⟨t,ht,hv⟩,hu⟩
      exact ⟨t,ht,v,hv,hu⟩

theorem run_append_bind {s : σ} {ls ls' : List ℓ} :
    run next s (ls++ls') = (run next s ls).bind (fun t => run next t ls') := by
  ext u
  rw [run_append,Option.bind_eq_some_iff]

/-- An invariant of the labels taken so far and the state reached. -/
theorem trace_invariant {I : List ℓ → σ → Prop}
    (hstep : ∀ tr s l t, I tr s → next s l = some t → I (tr++[l]) t) (tr : List ℓ)
    {ls : List ℓ} {s t : σ} (hs : I tr s) (hr : run next s ls = some t) : I (tr++ls) t := by
  induction ls generalizing tr s with
  | nil =>
    cases hr
    simpa using hs
  | cons l ls ih =>
    obtain ⟨u,hu,hr⟩ := run_cons.mp hr
    simpa using ih (tr++[l]) (hstep tr s l u hs hu) hr

/-- A plain state invariant. -/
theorem invariant {I : σ → Prop} (hstep : ∀ s l t, I s → next s l = some t → I t)
    {ls : List ℓ} {s t : σ} (hs : I s) (hr : run next s ls = some t) : I t :=
  trace_invariant (I := fun _ => I) (fun _ s l t => hstep s l t) [] hs hr

/-- What an invariant implies holds all along every run. -/
theorem always_of_invariant {I P : σ → Prop} (hstep : ∀ s l t, I s → next s l = some t → I t)
    (hP : ∀ s, I s → P s) {s : σ} (hs : I s) (ls : List ℓ) : Always next P s ls :=
  fun _ t _ hr => hP t (invariant hstep hs hr)

theorem along_of_invariant {I : σ → Prop} {D : σ → ℓ → Prop}
    (hstep : ∀ s l t, I s → next s l = some t → I t) (hD : ∀ s l, I s → D s l) {s : σ} (hs : I s)
    (ls : List ℓ) : Along next D s ls := by
  induction ls generalizing s with
  | nil => trivial
  | cons l ls ih => exact ⟨hD s l hs,fun t ht => ih (hstep s l t hs ht)⟩

/-- Where no step from an invariant state fails, no run does. -/
theorem run_total {I : σ → Prop} {V : ℓ → Prop}
    (hstep : ∀ s l, I s → V l → ∃ t, next s l = some t ∧ I t) {ls : List ℓ} {s : σ} (hs : I s)
    (hV : ∀ l ∈ ls, V l) : ∃ t, run next s ls = some t ∧ I t := by
  induction ls generalizing s with
  | nil => exact ⟨s,rfl,hs⟩
  | cons l ls ih =>
    obtain ⟨t,ht,hI⟩ := hstep s l hs (hV l List.mem_cons_self)
    obtain ⟨u,hu,hI⟩ := ih hI (fun l' h => hV l' (List.mem_cons_of_mem _ h))
    exact ⟨u,run_cons.mpr ⟨t,ht,hu⟩,hI⟩

/-- Along a run whose steps meet `C`, an invariant that `C`-steps keep gives every
consequence of the invariant and the condition at every step, and at the end. -/
theorem Along.invariant {C D : σ → ℓ → Prop} {I : σ → Prop}
    (hstep : ∀ s l t, I s → C s l → next s l = some t → I t) (hD : ∀ s l, I s → C s l → D s l)
    {ls : List ℓ} {s : σ} (hs : I s) (hC : Along next C s ls) :
    Along next D s ls ∧ ∀ t, run next s ls = some t → I t := by
  induction ls generalizing s with
  | nil => exact ⟨trivial,fun t ht => by cases ht; exact hs⟩
  | cons l ls ih =>
    refine ⟨⟨hD s l hs hC.1,fun t ht => (ih (hstep s l t hs hC.1 ht) (hC.2 t ht)).1⟩,?_⟩
    intro u hu
    obtain ⟨t,ht,hr⟩ := run_cons.mp hu
    exact (ih (hstep s l t hs hC.1 ht) (hC.2 t ht)).2 u hr

/-- Two conditions that agree where an invariant holds agree along runs, if the steps that
meet them keep the invariant. -/
theorem along_iff {C D : σ → ℓ → Prop} {I : σ → Prop} {V : ℓ → Prop}
    (hiff : ∀ s l, I s → V l → (C s l ↔ D s l))
    (hstep : ∀ s l t, I s → V l → D s l → next s l = some t → I t) {ls : List ℓ} {s : σ} (hs : I s)
    (hV : ∀ l ∈ ls, V l) : Along next C s ls ↔ Along next D s ls := by
  induction ls generalizing s with
  | nil => exact Iff.rfl
  | cons l ls ih =>
    have hl := hV l List.mem_cons_self
    have htail : ∀ t, D s l → next s l = some t → (Along next C t ls ↔ Along next D t ls) :=
      fun t hD ht => ih (hstep s l t hs hl hD ht) (fun l' h => hV l' (List.mem_cons_of_mem _ h))
    constructor
    · rintro ⟨hC,h⟩
      have hD := (hiff s l hs hl).mp hC
      exact ⟨hD,fun t ht => (htail t hD ht).mp (h t ht)⟩
    · rintro ⟨hD,h⟩
      exact ⟨(hiff s l hs hl).mpr hD,fun t ht => (htail t hD ht).mpr (h t ht)⟩

theorem Along.and {C D : σ → ℓ → Prop} {ls : List ℓ} {s : σ} (hC : Along next C s ls)
    (hD : Along next D s ls) : Along next (fun s l => C s l ∧ D s l) s ls := by
  induction ls generalizing s with
  | nil => trivial
  | cons l ls ih => exact ⟨⟨hC.1,hD.1⟩,fun t ht => ih (hC.2 t ht) (hD.2 t ht)⟩

/-- Where no step that meets the condition fails, no run of such steps does. -/
theorem Along.total {C : σ → ℓ → Prop} {I : σ → Prop}
    (hstep : ∀ s l, I s → C s l → ∃ t, next s l = some t ∧ I t) {ls : List ℓ} {s : σ} (hs : I s)
    (hC : Along next C s ls) : ∃ t, run next s ls = some t ∧ I t := by
  induction ls generalizing s with
  | nil => exact ⟨s,rfl,hs⟩
  | cons l ls ih =>
    obtain ⟨t,ht,hI⟩ := hstep s l hs hC.1
    obtain ⟨u,hu,hI⟩ := ih hI (hC.2 t ht)
    exact ⟨u,run_cons.mpr ⟨t,ht,hu⟩,hI⟩

/-- The condition holds of each step of the run in the state it is taken from. -/
theorem Along.at_step {C : σ → ℓ → Prop} {pre post : List ℓ} {l : ℓ} {s t : σ}
    (h : Along next C s (pre++l::post)) (hr : run next s pre = some t) : C t l := by
  induction pre generalizing s with
  | nil =>
    cases hr
    exact h.1
  | cons l' pre ih =>
    obtain ⟨u,hu,hr⟩ := run_cons.mp hr
    exact ih (h.2 u hu) hr

theorem Along.of_prefix {C : σ → ℓ → Prop} {pre ls : List ℓ} {s : σ} (hp : pre <+: ls)
    (h : Along next C s ls) : Along next C s pre := by
  induction pre generalizing s ls with
  | nil => trivial
  | cons l pre ih =>
    cases ls with
    | nil => cases List.prefix_nil.mp hp
    | cons l' ls =>
      obtain ⟨rfl,hpre⟩ := List.cons_prefix_cons.mp hp
      exact ⟨h.1,fun t ht => ih hpre (h.2 t ht)⟩

/-- What an invariant that `C`-steps keep implies holds all along the run. -/
theorem Along.always {C : σ → ℓ → Prop} {I P : σ → Prop}
    (hstep : ∀ s l t, I s → C s l → next s l = some t → I t) (hP : ∀ s, I s → P s)
    {ls : List ℓ} {s : σ} (hs : I s) (hC : Along next C s ls) : Always next P s ls :=
  fun _ t hp hr => hP t ((Along.invariant (D := fun _ _ => True) hstep (fun _ _ _ _ => trivial) hs
    (hC.of_prefix hp)).2 t hr)

theorem always_cons {P : σ → Prop} {s t : σ} {l : ℓ} {ls : List ℓ} (ht : next s l = some t) :
    Always next P s (l::ls) ↔ P s ∧ Always next P t ls := by
  constructor
  · refine fun h => ⟨h [] s List.nil_prefix rfl,fun pre u hp hr => ?_⟩
    exact h (l::pre) u (List.cons_prefix_cons.mpr ⟨rfl,hp⟩) (run_cons.mpr ⟨t,ht,hr⟩)
  · rintro ⟨hs,h⟩ pre u hp hr
    cases pre with
    | nil =>
      cases hr
      exact hs
    | cons l' pre =>
      obtain ⟨he,hpre⟩ := List.cons_prefix_cons.mp hp
      rw [he] at hr
      obtain ⟨v,hv,hr⟩ := run_cons.mp hr
      obtain rfl : t = v := Option.some.inj (ht.symm.trans hv)
      exact h pre u hpre hr

/-- The exact condition of a property of runs. The invariant gives the property, steps
within the condition keep the invariant, and any other step loses the property. -/
theorem always_iff_along {I P : σ → Prop} {C : σ → ℓ → Prop} (hI : ∀ s, I s → P s)
    (hkeep : ∀ s l t, I s → C s l → next s l = some t → I t)
    (hlose : ∀ s l t, I s → next s l = some t → P t → C s l) {ls : List ℓ} {s u : σ}
    (hs : I s) (hr : run next s ls = some u) : Always next P s ls ↔ Along next C s ls := by
  induction ls generalizing s with
  | nil =>
    refine ⟨fun _ => trivial,fun _ pre t hp ht => ?_⟩
    rw [List.prefix_nil.mp hp] at ht
    cases ht
    exact hI _ hs
  | cons l ls ih =>
    obtain ⟨t,ht,hr⟩ := run_cons.mp hr
    rw [always_cons ht]
    constructor
    · rintro ⟨-,h⟩
      have hC := hlose s l t hs ht (h [] t List.nil_prefix rfl)
      refine ⟨hC,fun v hv => ?_⟩
      obtain rfl : t = v := Option.some.inj (ht.symm.trans hv)
      exact (ih (hkeep s l t hs hC ht) hr).mp h
    · rintro ⟨hC,h⟩
      exact ⟨hI s hs,(ih (hkeep s l t hs hC ht) hr).mpr (h t ht)⟩

/-- The same where a step that is not possible counts as a failure of the run. -/
theorem possible_always_iff_along {I P : σ → Prop} {C : σ → ℓ → Prop} (hI : ∀ s, I s → P s)
    (hkeep : ∀ s l, I s → C s l → ∃ t, next s l = some t ∧ I t)
    (hlose : ∀ s l t, I s → next s l = some t → P t → C s l) {ls : List ℓ} {s : σ}
    (hs : I s) : ((∃ u, run next s ls = some u) ∧ Always next P s ls) ↔ Along next C s ls := by
  have hstep : ∀ s l t, I s → C s l → next s l = some t → I t := by
    intro s l t hs hC ht
    obtain ⟨t',ht',hI'⟩ := hkeep s l hs hC
    rwa [Option.some.inj (ht.symm.trans ht')]
  constructor
  · rintro ⟨⟨u,hu⟩,h⟩
    exact (always_iff_along hI hstep hlose hs hu).mp h
  · intro hC
    obtain ⟨u,hu,-⟩ := hC.total hkeep hs
    exact ⟨⟨u,hu⟩,(always_iff_along hI hstep hlose hs hu).mpr hC⟩

theorem total_cons {f : σ → ℓ → ℕ} {s t : σ} {l : ℓ} {ls : List ℓ} (ht : next s l = some t) :
    total next f s (l::ls) = f s l+total next f t ls := by
  rw [total,ht]

theorem total_mul {f : σ → ℓ → ℕ} (k : ℕ) {s : σ} {ls : List ℓ} :
    total next (fun s l => k*f s l) s ls = k*total next f s ls := by
  induction ls generalizing s with
  | nil => rfl
  | cons l ls ih =>
    unfold total
    cases next s l with
    | none => rfl
    | some t =>
      simp only
      rw [ih,Nat.mul_add]

/-- A condition on the labels alone. -/
theorem along_of_forall {V : ℓ → Prop} {s : σ} {ls : List ℓ} (h : ∀ l ∈ ls, V l) :
    Along next (fun _ => V) s ls := by
  induction ls generalizing s with
  | nil => trivial
  | cons l ls ih =>
    exact ⟨h l List.mem_cons_self,fun t _ => ih (fun l' hl => h l' (List.mem_cons_of_mem _ hl))⟩

/-- The rest of a run meets the condition from where it starts. -/
theorem Along.append {C : σ → ℓ → Prop} {ls ls' : List ℓ} {s t : σ} (h : Along next C s ls)
    (hr : run next s ls = some t) (h' : Along next C t ls') : Along next C s (ls++ls') := by
  induction ls generalizing s with
  | nil =>
    cases hr
    exact h'
  | cons l ls ih =>
    obtain ⟨u,hu,hr⟩ := run_cons.mp hr
    refine ⟨h.1,fun v hv => ?_⟩
    obtain rfl := Option.some.inj (hu.symm.trans hv)
    exact ih (h.2 u hu) hr

theorem Along.behind {C : σ → ℓ → Prop} {ls ls' : List ℓ} {s t : σ}
    (h : Along next C s (ls++ls')) (hr : run next s ls = some t) : Along next C t ls' := by
  induction ls generalizing s with
  | nil =>
    cases hr
    exact h
  | cons l ls ih =>
    obtain ⟨u,hu,hr⟩ := run_cons.mp hr
    exact ih (h.2 u hu) hr

/-- A potential bounds what is counted: every step of a run that stays in `P` takes from it what
`f` counts, and puts at most what `g` counts into it. -/
theorem Along.total_le {I : ℕ → σ → Prop} {C : σ → ℓ → Prop} {P : σ → Prop} {f g : σ → ℓ → ℕ}
    (hstep : ∀ n s l t, I n s → C s l → P s → P t → next s l = some t →
      ∃ m, I m t ∧ f s l+m ≤ n+g s l)
    {n : ℕ} {ls : List ℓ} {s u : σ} (hs : I n s) (hC : Along next C s ls)
    (hP : Always next P s ls) (hr : run next s ls = some u) :
    ∃ m, I m u ∧ Runs.total next f s ls+m ≤ n+Runs.total next g s ls := by
  induction ls generalizing n s with
  | nil =>
    cases hr
    exact ⟨n,hs,by simp [Runs.total]⟩
  | cons l ls ih =>
    obtain ⟨t,ht,hr⟩ := run_cons.mp hr
    obtain ⟨hPs,hP⟩ := (always_cons ht).mp hP
    obtain ⟨m,hm,hle⟩ := hstep n s l t hs hC.1 hPs (hP [] t List.nil_prefix rfl) ht
    obtain ⟨m',hm',hle'⟩ := ih hm (hC.2 t ht) hP hr
    refine ⟨m',hm',?_⟩
    rw [total_cons ht,total_cons ht]
    omega

theorem shown_cons {α : Type*} {f : σ → ℓ → List α} {s t : σ} {l : ℓ} {ls : List ℓ}
    (ht : next s l = some t) : shown next f s (l::ls) = f s l++shown next f t ls := by
  rw [shown,ht]

/-- Forward simulation: if the steps of another machine that are shown are possible there and
lead back into the relation, then so does all that a run shows. -/
theorem run_simulated {τ α : Type*} {next' : τ → α → Option τ} {R : σ → τ → Prop}
    {f : σ → ℓ → List α}
    (hstep : ∀ s l t a, R s a → next s l = some t → ∃ b, run next' a (f s l) = some b ∧ R t b)
    {ls : List ℓ} {s t : σ} {a : τ} (hR : R s a) (hr : run next s ls = some t) :
    ∃ b, run next' a (shown next f s ls) = some b ∧ R t b := by
  induction ls generalizing s a with
  | nil =>
    cases hr
    exact ⟨a,rfl,hR⟩
  | cons l ls ih =>
    obtain ⟨u,hu,hr⟩ := run_cons.mp hr
    obtain ⟨b,hb,hR⟩ := hstep s l u a hR hu
    obtain ⟨c,hc,hR⟩ := ih hR hr
    refine ⟨c,?_,hR⟩
    rw [shown_cons hu]
    exact run_append.mpr ⟨b,hb,hc⟩

theorem shown_append {α : Type*} {f : σ → ℓ → List α} {s t : σ} {ls ls' : List ℓ} (h : run next s ls = some t) :
    shown next f s (ls++ls') = shown next f s ls++shown next f t ls' := by
  induction ls generalizing s with
  | nil =>
    cases h
    rfl
  | cons l ls ih =>
    obtain ⟨u,hu,hr⟩ := run_cons.mp h
    rw [List.cons_append,shown_cons hu,shown_cons hu,ih hr,List.append_assoc]

/-- The other way round: if each step of the other machine, in a state where it is allowed, is
what some run from a related state shows, then so are its runs. -/
theorem run_completed {τ α : Type*} {next' : τ → α → Option τ} {R : σ → τ → Prop} {C : τ → α → Prop}
    {f : σ → ℓ → List α}
    (hstep : ∀ s a e b, R s a → C a e → next' a e = some b →
      ∃ ls t, run next s ls = some t ∧ shown next f s ls = [e] ∧ R t b)
    {es : List α} {s : σ} {a b : τ} (hR : R s a) (hC : Along next' C a es)
    (hr : run next' a es = some b) :
    ∃ ls t, run next s ls = some t ∧ shown next f s ls = es ∧ R t b := by
  induction es generalizing s a with
  | nil =>
    cases hr
    exact ⟨[],s,rfl,rfl,hR⟩
  | cons e es ih =>
    obtain ⟨c,hc,hr⟩ := run_cons.mp hr
    obtain ⟨ls,u,hu,hls,hR⟩ := hstep s a e c hR hC.1 hc
    obtain ⟨ls',t,ht,hls',hR⟩ := ih hR (hC.2 c hc) hr
    refine ⟨ls++ls',t,run_append.mpr ⟨u,hu,ht⟩,?_,hR⟩
    rw [shown_append hu,hls,hls']
    rfl

theorem drive_eq_some {τ α : Type*} {next' : τ → α → Option τ} {f : σ → ℓ → List α} {s t : σ}
    {a b : τ} {l : ℓ} : drive next next' f (s,a) l = some (t,b) ↔
      next s l = some t ∧ run next' a (f s l) = some b := by
  simp only [drive,Option.bind_eq_some_iff,Option.map_eq_some_iff,Prod.mk.injEq]
  constructor
  · rintro ⟨t',ht,b',hb,rfl,rfl⟩
    exact ⟨ht,hb⟩
  · rintro ⟨ht,hb⟩
    exact ⟨t,ht,b,hb,rfl,rfl⟩

theorem run_drive {τ α : Type*} {next' : τ → α → Option τ} {f : σ → ℓ → List α} {ls : List ℓ}
    {s t : σ} {a b : τ} : run (drive next next' f) (s,a) ls = some (t,b) ↔
      run next s ls = some t ∧ run next' a (shown next f s ls) = some b := by
  induction ls generalizing s a with
  | nil => simp [shown]
  | cons l ls ih =>
    rw [run_cons]
    constructor
    · rintro ⟨⟨u,c⟩,hu,hr⟩
      obtain ⟨hu,hc⟩ := drive_eq_some.mp hu
      obtain ⟨hr,hb⟩ := ih.mp hr
      refine ⟨run_cons.mpr ⟨u,hu,hr⟩,?_⟩
      rw [shown_cons hu]
      exact run_append.mpr ⟨c,hc,hb⟩
    · rintro ⟨hr,hb⟩
      obtain ⟨u,hu,hr⟩ := run_cons.mp hr
      rw [shown_cons hu] at hb
      obtain ⟨c,hc,hb⟩ := run_append.mp hb
      exact ⟨(u,c),drive_eq_some.mpr ⟨hu,hc⟩,ih.mpr ⟨hr,hb⟩⟩

end ComplexOS.Runs
