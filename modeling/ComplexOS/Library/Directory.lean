import Mathlib.Data.List.Basic

/-! # Directories of slots

Slots bear names, and a search answers a slot that bears the name it is given. It keeps
a directory if the slots that bear a name are the entries under it, one for each name.
-/
namespace ComplexOS.Directory
variable {ι ν : Type*}

/-- A search over the slots: what it answers bears the name, and it misses no bearer. -/
structure Searches (bears : ι → ν → Prop) (search : ν → Option ι) : Prop where
  found : ∀ n i, search n = some i → bears i n
  missed : ∀ n, search n = none → ∀ i, ¬ bears i n

/-- The slots bear the names of the entries, and no name is entered twice. -/
structure Files (bears : ι → ν → Prop) (names : List (ι × ν)) : Prop where
  bears : ∀ i n, bears i n ↔ (i,n) ∈ names
  unique : ∀ i j n, (i,n) ∈ names → (j,n) ∈ names → i = j

variable {bears bears' : ι → ν → Prop} {search : ν → Option ι} {names : List (ι × ν)} {i : ι} {n : ν}

/-- The search answers the entry under the name. -/
theorem Files.find (h : Files bears names) (hs : Searches bears search) :
    search n = some i ↔ (i,n) ∈ names := by
  constructor
  · intro hf
    exact (h.bears i n).mp (hs.found n i hf)
  · intro hm
    cases hf : search n with
    | none => exact absurd ((h.bears i n).mpr hm) (hs.missed n hf i)
    | some j => rw [h.unique j i n ((h.bears j n).mp (hs.found n j hf)) hm]

theorem Files.congr (h : Files bears names) (hb : ∀ i n, bears' i n ↔ bears i n) :
    Files bears' names :=
  ⟨fun i n => (hb i n).trans (h.bears i n),h.unique⟩

/-- A new name goes to a slot. -/
theorem Files.insert (h : Files bears names) (hn : ∀ j, ¬ bears j n)
    (hb : ∀ j m, bears' j m ↔ j = i ∧ m = n ∨ bears j m) : Files bears' ((i,n)::names) := by
  have hnew : ∀ j, (j,n) ∉ names := fun j hm => hn j ((h.bears j n).mpr hm)
  constructor
  · intro j m
    rw [hb,List.mem_cons,Prod.mk.injEq,h.bears]
  · intro j j' m hj hj'
    rcases List.mem_cons.mp hj with he | hj
    · cases he
      rcases List.mem_cons.mp hj' with he' | hj'
      · cases he'
        rfl
      · exact absurd hj' (hnew j')
    · rcases List.mem_cons.mp hj' with he' | hj'
      · cases he'
        exact absurd hj (hnew j)
      · exact h.unique j j' m hj hj'

/-- A slot gives up whatever it bears. -/
theorem Files.erase [DecidableEq ι] (h : Files bears names)
    (hb : ∀ j m, bears' j m ↔ j ≠ i ∧ bears j m) :
    Files bears' (names.filter (fun x => decide (x.1 ≠ i))) := by
  constructor
  · intro j m
    rw [hb,h.bears,List.mem_filter,decide_eq_true_iff,and_comm]
  · intro j j' m hj hj'
    exact h.unique j j' m (List.mem_of_mem_filter hj) (List.mem_of_mem_filter hj')

end ComplexOS.Directory
