import Mathlib.Data.List.Basic

/-! # Machines that answer

A machine takes requests one after the other and answers each of them. Two machines whose
states stay related while they give the same answers cannot be told apart by any sequence of
requests.
-/
namespace ComplexOS.Answers
variable {σ τ ρ α : Type*}

/-- The answers to a sequence of requests, and the state behind the last of them. -/
def answers (f : σ → ρ → Option (α × σ)) : List ρ → σ → Option (List α × σ)
  | [], s => some ([],s)
  | r::rs, s => (f s r).bind (fun x => (answers f rs x.2).map (fun y => (x.1::y.1,y.2)))

/-- From related states a request is answered alike, and leaves related states behind. -/
def Simulates (f : σ → ρ → Option (α × σ)) (g : τ → ρ → Option (α × τ)) (V : ρ → Prop)
    (R : σ → τ → Prop) : Prop :=
  ∀ s t r, R s t → V r → ∃ a s' t', f s r = some (a,s') ∧ g t r = some (a,t') ∧ R s' t'

variable {f : σ → ρ → Option (α × σ)} {g : τ → ρ → Option (α × τ)} {V : ρ → Prop} {R : σ → τ → Prop}

theorem answers_cons {r : ρ} {rs : List ρ} {s s' : σ} {a : α} (h : f s r = some (a,s')) :
    answers f (r::rs) s = (answers f rs s').map (fun y => (a::y.1,y.2)) := by
  rw [answers,h,Option.bind_some]

theorem Simulates.answers (h : Simulates f g V R) {rs : List ρ} {s : σ} {t : τ} (hR : R s t)
    (hV : ∀ r ∈ rs, V r) : ∃ as s' t', Answers.answers f rs s = some (as,s') ∧
      Answers.answers g rs t = some (as,t') ∧ R s' t' := by
  induction rs generalizing s t with
  | nil => exact ⟨[],s,t,rfl,rfl,hR⟩
  | cons r rs ih =>
    obtain ⟨a,s₁,t₁,hf,hg,hR⟩ := h s t r hR (hV r List.mem_cons_self)
    obtain ⟨as,s',t',hs,ht,hR⟩ := ih hR (fun r' hr => hV r' (List.mem_cons_of_mem _ hr))
    refine ⟨a::as,s',t',?_,?_,hR⟩
    · rw [answers_cons hf,hs]
      rfl
    · rw [answers_cons hg,ht]
      rfl

end ComplexOS.Answers
