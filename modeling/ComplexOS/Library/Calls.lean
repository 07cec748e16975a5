import Mathlib.Order.Basic

/-! # Calls that change a state or stop

Imperative code as functions that answer a value and a new state, or the reason why
they never come back. A call is specified by what holds when it comes back and by the
reasons that it may stop for; without any reason left it always comes back.
-/
namespace ComplexOS

abbrev Call (σ ε α : Type) := StateT σ (Except ε) α

theorem ok_of_toOption {ε α : Type} {x : Except ε α} {a : α} (h : x.toOption = some a) : x = .ok a := by
  cases x with
  | error e => cases h
  | ok b =>
    cases h
    rfl

namespace Call
variable {σ ε α β ι : Type} {x y : Call σ ε α} {f g : α → Call σ ε β} {s s' s'' : σ} {a : α} {b : β}
  {e : ε}

def stop (e : ε) : Call σ ε α := fun _ => .error e

def partly (e : ε) (g : σ → Option (α × σ)) : Call σ ε α := fun s => (g s).elim (.error e) .ok

theorem bind_of_ok (h : x s = .ok (a,s')) : (x >>= f) s = f a s' := by
  show Except.bind (x s) (fun p => f p.1 p.2) = _
  rw [h]
  rfl

theorem bind_of_error (h : x s = .error e) : (x >>= f) s = .error e := by
  show Except.bind (x s) (fun p => f p.1 p.2) = _
  rw [h]
  rfl

theorem bind_ok : (x >>= f) s = .ok (b,s'') ↔ ∃ a s', x s = .ok (a,s') ∧ f a s' = .ok (b,s'') := by
  constructor
  · intro h
    cases hx : x s with
    | error e =>
      rw [bind_of_error hx] at h
      cases h
    | ok p =>
      rw [bind_of_ok hx] at h
      exact ⟨p.1,p.2,rfl,h⟩
  · rintro ⟨a,s',hx,hf⟩
    rw [bind_of_ok hx,hf]

theorem bind_error : (x >>= f) s = .error e ↔
    x s = .error e ∨ ∃ a s', x s = .ok (a,s') ∧ f a s' = .error e := by
  constructor
  · intro h
    cases hx : x s with
    | error e' =>
      rw [bind_of_error hx] at h
      cases h
      exact Or.inl rfl
    | ok p =>
      rw [bind_of_ok hx] at h
      exact Or.inr ⟨p.1,p.2,rfl,h⟩
  · rintro (hx | ⟨a,s',hx,hf⟩)
    · exact bind_of_error hx
    · rw [bind_of_ok hx,hf]

@[simp] theorem pure_apply : (pure a : Call σ ε α) s = .ok (a,s) := rfl

@[simp] theorem get_apply : (get : Call σ ε σ) s = .ok (s,s) := rfl

@[simp] theorem modify_apply {g : σ → σ} : (modify g : Call σ ε PUnit) s = .ok (⟨⟩,g s) := rfl

@[simp] theorem get_bind {f : σ → Call σ ε β} : (get >>= f) s = f s s := rfl

@[simp] theorem modify_bind {g : σ → σ} {f : PUnit → Call σ ε β} :
    (modify g >>= f) s = f ⟨⟩ (g s) := rfl

theorem partly_ok {g : σ → Option (α × σ)} : partly e g s = .ok (a,s') ↔ g s = some (a,s') := by
  unfold partly
  cases g s with
  | none => simp
  | some p => simp

theorem partly_error {g : σ → Option (α × σ)} {e' : ε} :
    partly e g s = .error e' ↔ g s = none ∧ e' = e := by
  unfold partly
  cases g s with
  | none => simp [eq_comm]
  | some p => simp

/-- From a state with `P` the call comes back with `Q`, or stops for a reason in `E`. -/
structure Spec (P : σ → Prop) (x : Call σ ε α) (Q : α → σ → Prop) (E : ε → Prop) : Prop where
  ok : ∀ s a s', P s → x s = .ok (a,s') → Q a s'
  error : ∀ s e, P s → x s = .error e → E e

variable {P P' : σ → Prop} {Q Q' : α → σ → Prop} {R : β → σ → Prop} {E E' : ε → Prop}

namespace Spec

theorem conseq (h : Spec P x Q E) (hP : ∀ s, P' s → P s) (hQ : ∀ a s, Q a s → Q' a s)
    (hE : ∀ e, E e → E' e) : Spec P' x Q' E' :=
  ⟨fun s a s' hp hx => hQ a s' (h.ok s a s' (hP s hp) hx),
    fun s e hp hx => hE e (h.error s e (hP s hp) hx)⟩

theorem pure (h : ∀ s, P s → Q a s) : Spec P (Pure.pure a) Q E := by
  constructor
  · intro s b s' hp hx
    cases hx
    exact h s hp
  · intro s e hp hx
    cases hx

theorem stop (h : ∀ s, P s → E e) : Spec P (Call.stop e) Q E := by
  constructor
  · intro s a s' _ hx
    cases hx
  · intro s e' hp hx
    cases hx
    exact h s hp

/-- Nothing comes after a call that does not come back. -/
theorem of_false : Spec (fun _ => False) x Q E :=
  ⟨fun _ _ _ h _ => h.elim,fun _ _ h _ => h.elim⟩

theorem bind (hx : Spec P x Q E) (hf : ∀ a, Spec (Q a) (f a) R E) : Spec P (x >>= f) R E := by
  constructor
  · intro s b s'' hp h
    obtain ⟨a,s',ha,hb⟩ := bind_ok.mp h
    exact (hf a).ok s' b s'' (hx.ok s a s' hp ha) hb
  · intro s e hp h
    rcases bind_error.mp h with h | ⟨a,s',ha,hb⟩
    · exact hx.error s e hp h
    · exact (hf a).error s' e (hx.ok s a s' hp ha) hb

theorem update {g : σ → σ} {Q : PUnit → σ → Prop} (h : ∀ s, P s → Q ⟨⟩ (g s)) :
    Spec P (modify g) Q E := by
  constructor
  · intro s b s' hp hx
    cases hx
    exact h s hp
  · intro s e hp hx
    cases hx

/-- What is read may be kept for the rest of the call. -/
theorem get_bind {f : σ → Call σ ε β} (h : ∀ t, Spec (fun s => P s ∧ s = t) (f t) R E) :
    Spec P (get >>= f) R E := by
  constructor
  · intro s b s' hp hx
    exact (h s).ok s b s' ⟨hp,rfl⟩ hx
  · intro s e hp hx
    exact (h s).error s e ⟨hp,rfl⟩ hx

/-- What the precondition says of some state may be used to prove the rest. -/
theorem of_pre (h : ∀ s, P s → Spec P x Q E) : Spec P x Q E :=
  ⟨fun s a s' hp => (h s hp).ok s a s' hp,fun s e hp => (h s hp).error s e hp⟩

theorem forM_mem {f : ι → Call σ ε PUnit} {is : List ι}
    (h : ∀ i ∈ is, Spec P (f i) (fun _ => P) E) : Spec P (is.forM f) (fun _ => P) E := by
  induction is with
  | nil => exact Spec.pure (fun _ hp => hp)
  | cons i is ih =>
    exact (h i List.mem_cons_self).bind (fun _ => ih (fun j hj => h j (List.mem_cons_of_mem _ hj)))

/-- A loop does not get past an element that its body does not come back from. -/
theorem forM_stops {f : ι → Call σ ε PUnit} {is : List ι} (hit : ι → Prop)
    (hhit : ∀ i, hit i → Spec P (f i) (fun _ _ => False) E)
    (hmiss : ∀ i, ¬ hit i → Spec P (f i) (fun _ => P) E) (h : ∃ i ∈ is, hit i) :
    Spec P (is.forM f) (fun _ _ => False) E := by
  induction is with
  | nil =>
    obtain ⟨i,hi,-⟩ := h
    cases hi
  | cons i is ih =>
    by_cases hi : hit i
    · exact (hhit i hi).bind (fun _ => of_false)
    · obtain ⟨j,hj,hx⟩ := h
      have hmem : j ∈ is := (List.mem_cons.mp hj).resolve_left (fun he => hi (he ▸ hx))
      exact (hmiss i hi).bind (fun _ => ih ⟨j,hmem,hx⟩)

/-- With nothing left to stop for the call comes back. -/
theorem total (h : Spec P x Q (fun _ => False)) (hp : P s) : ∃ a s', x s = .ok (a,s') ∧ Q a s' := by
  cases hx : x s with
  | error e => exact (h.error s e hp hx).elim
  | ok p => exact ⟨p.1,p.2,rfl,h.ok s p.1 p.2 hp hx⟩

theorem of_total (h : ∀ s, P s → ∃ a s', x s = .ok (a,s') ∧ Q a s') :
    Spec P x Q (fun _ => False) := by
  constructor
  · intro s a s' hp hx
    obtain ⟨b,s'',hb,hq⟩ := h s hp
    rw [hx] at hb
    cases hb
    exact hq
  · intro s e hp hx
    obtain ⟨b,s'',hb,-⟩ := h s hp
    rw [hx] at hb
    cases hb

end Spec

/-- Where every round settles its own index only, one that cannot be settled is enough. -/
theorem forM_fails {f : ι → Call σ ε PUnit} {I : σ → Prop} {P : ι → σ → Prop} {is : List ι}
    (hnodup : is.Nodup)
    (hpass : ∀ i ∈ is, ∀ s, I s → P i s →
      ∃ s', f i s = .ok (⟨⟩,s') ∧ I s' ∧ ∀ j ∈ is, j ≠ i → P j s' → P j s)
    (hfail : ∀ i ∈ is, ∀ s, I s → ¬ P i s → ∃ e, f i s = .error e) (hs : I s)
    (h : ∃ i ∈ is, ¬ P i s) : ∃ e, is.forM f s = .error e := by
  induction is generalizing s with
  | nil =>
    obtain ⟨i,hi,-⟩ := h
    cases hi
  | cons i is ih =>
    obtain ⟨hi,hnodup⟩ := List.nodup_cons.mp hnodup
    by_cases hp : P i s
    · obtain ⟨s',hf,hs',hback⟩ := hpass i List.mem_cons_self s hs hp
      obtain ⟨j,hj,hx⟩ := h
      obtain rfl | hj := List.mem_cons.mp hj
      · exact absurd hp hx
      · have hne : j ≠ i := fun he => hi (he ▸ hj)
        obtain ⟨e,he⟩ := ih hnodup (fun l hl s hI hP => by
            obtain ⟨s',hf,hs',hback⟩ := hpass l (List.mem_cons_of_mem _ hl) s hI hP
            exact ⟨s',hf,hs',fun j hj => hback j (List.mem_cons_of_mem _ hj)⟩)
          (fun l hl => hfail l (List.mem_cons_of_mem _ hl)) hs'
          ⟨j,hj,fun hy => hx (hback j (List.mem_cons_of_mem _ hj) hne hy)⟩
        exact ⟨e,(bind_of_ok hf).trans he⟩
    · obtain ⟨e,he⟩ := hfail i List.mem_cons_self s hs hp
      exact ⟨e,bind_of_error he⟩

theorem forM_idle {f : ι → Call σ ε PUnit} {is : List ι} (h : ∀ i ∈ is, f i s = .ok (⟨⟩,s)) : is.forM f s = .ok (⟨⟩,s) := by
  induction is with
  | nil => rfl
  | cons i is ih =>
    exact (bind_of_ok (h i List.mem_cons_self)).trans
      (ih (fun j hj => h j (List.mem_cons_of_mem _ hj)))

/-- A loop over indices, by what holds before each of its rounds. -/
theorem forM_range_ok {f : ℕ → Call σ ε PUnit} {I : ℕ → σ → Prop} {n : ℕ} {u : PUnit}
    (h : ∀ i < n, ∀ s s', I i s → f i s = .ok (⟨⟩,s') → I (i+1) s') (h₀ : I 0 s)
    (hx : (List.range n).forM f s = .ok (u,s')) : I n s' := by
  have hloop : ∀ m i s, i+m = n → I i s → (List.range' i m).forM f s = .ok (u,s') → I n s' := by
    intro m
    induction m with
    | zero =>
      intro i s hi hI hx
      cases hx
      rwa [← hi]
    | succ m ih =>
      intro i s hi hI hx
      obtain ⟨⟨⟩,s₁,hi₁,hx⟩ := bind_ok.mp hx
      exact ih (i+1) s₁ (by omega) (h i (by omega) s s₁ hI hi₁) hx
  rw [List.range_eq_range'] at hx
  exact hloop n 0 s (Nat.zero_add n) h₀ hx

/-- Where `x` comes back, so does `y`, with the same answer and in the same state. -/
def Extends (x y : Call σ ε α) : Prop := ∀ s a s', x s = .ok (a,s') → y s = .ok (a,s')

namespace Extends

theorem refl : Extends x x := fun _ _ _ h => h

theorem bind (h : Extends x y) (hf : ∀ a, Extends (f a) (g a)) : Extends (x >>= f) (y >>= g) := by
  intro s b s'' hx
  obtain ⟨a,s',ha,hb⟩ := bind_ok.mp hx
  rw [bind_of_ok (h s a s' ha)]
  exact hf a s' b s'' hb

theorem forM {f g : ι → Call σ ε PUnit} {is : List ι} (h : ∀ i, Extends (f i) (g i)) :
    Extends (is.forM f) (is.forM g) := by
  induction is with
  | nil => exact refl
  | cons i is ih => exact (h i).bind (fun _ => ih)

end Extends

end Call
end ComplexOS
