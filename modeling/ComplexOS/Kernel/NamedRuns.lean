import ComplexOS.Kernel.Names
import ComplexOS.Library.Runs

/-! # The directory over runs of calls

`getMutex` and `releaseMutex` in any order, or the two calls of the semaphores. The ghost
is the directory: the names that ids have been created under and not released since.
-/
namespace ComplexOS
open Kernel Call Directory Runs

structure Named where
  registry : Registry
  names : List (ℤ × Name)

inductive NamedCall
  | get (name : Name) (t : ThreadId)
  | release (id : ℤ) (t : ThreadId)
  deriving DecidableEq

def NamedCall.caller : NamedCall → ThreadId
  | get _ t => t
  | release _ t => t

structure NamedPool where
  get : List UInt8 → ℤ → ℤ → KernelCall (Option ℤ)
  release : ℤ → ℤ → ℤ → KernelCall Bool
  find : Kernel → List UInt8 → Option ℤ

def mutexPool : NamedPool := ⟨Registry.getMutex,Registry.releaseMutex,Kernel.findMutex⟩

def semaphorePool : NamedPool :=
  ⟨Registry.getSemaphore,Registry.releaseSemaphore,Kernel.findSemaphore⟩

namespace NamedPool
variable (P : NamedPool) (s : Named)

def call : NamedCall → KernelCall (Option ℤ)
  | .get name t => P.get name.1 t.pid t.thread
  | .release id t => P.release t.pid id t.thread >>= fun b => pure (if b then some id else none)

def record (names : List (ℤ × Name)) : NamedCall → Option ℤ → List (ℤ × Name)
  | .get name _, some id => if (id,name) ∈ names then names else (id,name)::names
  | .release _ _, some id => names.filter (fun x => decide (x.1 ≠ id))
  | _, none => names

def step (c : NamedCall) : Option Named :=
  (P.call c s.registry).toOption.map (fun x => ⟨x.2,record s.names c x.1⟩)

/-- The id under the name if there is one, and else an id that is not taken. -/
def Right (names : List (ℤ × Name)) : NamedCall → Option ℤ → Prop
  | .get name _, r => ∃ id, r = some id ∧ (∀ j, (j,name) ∈ names → id = j) ∧
      ((∀ j, (j,name) ∉ names) → ∀ m, (id,m) ∉ names)
  | .release _ _, _ => True

structure Lists (k : Kernel) (names : List (ℤ × Name)) : Prop where
  find : ∀ n i, P.find k n.1 = some i ↔ (i,n) ∈ names
  names : ∀ i m n, (i,m) ∈ names → (i,n) ∈ names → m = n

def Served (c : NamedCall) : Prop :=
  ∃ r t, P.call c s.registry = .ok (r,t) ∧ Right s.names c r ∧ P.Lists t.kernel (record s.names c r)

variable {P s} {s' : Named} {c : NamedCall} {r : Option ℤ} {t : Registry} {names : List (ℤ × Name)}

theorem step_of_ok (h : P.call c s.registry = .ok (r,t)) :
    step P s c = some ⟨t,record s.names c r⟩ := by
  unfold step
  rw [h]
  rfl

theorem mem_record {name : Name} {id : ℤ} {t : ThreadId} :
    (id,name) ∈ record names (.get name t) (some id) := by
  show (id,name) ∈ if (id,name) ∈ names then names else (id,name)::names
  split
  · assumption
  · exact List.mem_cons_self

theorem call_release {id : ℤ} {u : ThreadId} {b : Bool}
    (h : P.release u.pid id u.thread s.registry = .ok (b,t)) :
    P.call (.release id u) s.registry = .ok (if b then some id else none,t) :=
  bind_of_ok h

theorem not_served_of_error {e : Stop} (h : P.call c s.registry = .error e) : ¬ Served P s c := by
  rintro ⟨r,t,hc,-⟩
  rw [h] at hc
  cases hc

/-- What one call does, from which both directions follow. -/
theorem served_of_ok (h : P.call c s.registry = .ok (r,t)) :
    Served P s c ↔ Right s.names c r ∧ P.Lists t.kernel (record s.names c r) := by
  constructor
  · rintro ⟨r',t',hc,hx⟩
    rw [h] at hc
    cases hc
    exact hx
  · exact fun hx => ⟨r,t,h,hx⟩

end NamedPool

namespace Kernel
variable {k : Kernel} {names : List (ℤ × Name)}

theorem lists_of_files {P : NamedPool} {bears : ℤ → Name → Prop} (h : Files bears names)
    (hs : Searches bears (fun n => P.find k n.1))
    (hu : ∀ i m n, bears i m → bears i n → m = n) : P.Lists k names :=
  ⟨fun _ _ => h.find hs,fun i m n hm hn => hu i m n ((h.bears i m).mpr hm) ((h.bears i n).mpr hn)⟩

theorem Filed.lists (h : k.Filed names) : mutexPool.Lists k names :=
  lists_of_files h.files mutexBears_searches (fun _ _ _ => Bears.unique)

end Kernel

namespace Named
open NamedPool Registry
variable {s s' : Named} {c : NamedCall}

/-- `adminMutex` is free. A new name also needs the counter, and a slot that has a NUL
where the name ends. -/
def MutexCalm (s : Named) (c : NamedCall) : Prop :=
  (s.registry.kernel.mutexes adminMutex).value ≠ locked ∧
    match c with
    | .get name _ => s.registry.kernel.findMutex name.1 = none →
        s.registry.kernel.usedMutexes < maxMutexes ∧
        (s.registry.kernel.mutexes s.registry.kernel.firstAvailableMutex).name name.1.length = 0
    | .release _ _ => True

theorem mutex_served {r : Option ℤ} {t : Registry} (h : mutexPool.call c s.registry = .ok (r,t))
    (hr : Right s.names c r) (hf : t.kernel.Filed (record s.names c r)) :
    Served mutexPool s c ∧ ∀ s', step mutexPool s c = some s' → s'.registry.kernel.Filed s'.names := by
  refine ⟨⟨r,t,h,hr,hf.lists⟩,fun s' hs => ?_⟩
  rw [step_of_ok h] at hs
  cases hs
  exact hf

theorem mutex_calm (h : s.registry.kernel.Filed s.names) (hp : 0 < c.caller.pid)
    (hc : MutexCalm s c) : Served mutexPool s c ∧
      ∀ s', step mutexPool s c = some s' → s'.registry.kernel.Filed s'.names := by
  obtain ⟨hopen,hc⟩ := hc
  have hadmin := h.pop (i := adminMutex) (by decide)
  cases c with
  | get name t =>
    cases hi : s.registry.kernel.findMutex name.1 with
    | some i =>
      have hm := h.find.mp hi
      apply mutex_served (s := s) (c := .get name t) (getMutex_hit h.guarded hopen hi)
      · exact ⟨i,rfl,fun j hj => h.files.unique i j name hm hj,fun hx => absurd hm (hx i)⟩
      · show Filed _ (if (i,name) ∈ s.names then _ else _)
        rw [if_pos hm]
        exact h.lockSlot
    | none =>
      have hn : ∀ j, (j,name) ∉ s.names := by
        intro j hj
        rw [h.find.mpr hj] at hi
        cases hi
      obtain ⟨hu,hz⟩ := hc hi
      obtain ⟨r,k,hk⟩ : ∃ r k, s.registry.kernel.createMutex t.pid name.1 t.thread = (r,k) := ⟨_,_,rfl⟩
      have hne : t.pid ≠ notUsed := by
        have hn : notUsed = -1 := rfl
        have ht : 0 < t.pid := hp
        omega
      obtain ⟨rfl,hfiled⟩ := h.createMutex hn hu hz hne hk
      have hfree : ∀ m, (s.registry.kernel.firstAvailableMutex,m) ∉ s.names := by
        intro m hm
        exact ((h.files.bears _ m).mpr hm).2.1 (h.cached hu).2
      apply mutex_served (s := s) (c := .get name t) (getMutex_miss h.guarded hopen hadmin hi hk)
      · exact ⟨_,rfl,fun j hj => absurd hj (hn j),fun _ => hfree⟩
      · show Filed _ (if _ ∈ s.names then _ else _)
        rw [if_neg (hfree name)]
        exact hfiled.lockSlot
  | release id t =>
    have hb : s.registry.kernel.releaseMutexBody id t = _ := h.releaseMutexBody
    split at hb
    · have hcall := call_release (P := mutexPool) (s := s)
        (releaseMutex_guarded h.guarded hopen hadmin hp hb)
      exact mutex_served hcall trivial (h.disownMutex (h.released hp hb)).lockSlot
    · have hcall := call_release (P := mutexPool) (s := s)
        (releaseMutex_guarded h.guarded hopen hadmin hp hb)
      exact mutex_served hcall trivial h.lockSlot

theorem mutex_not_served (h : s.registry.kernel.Filed s.names) (hp : 0 < c.caller.pid)
    (hc : ¬ MutexCalm s c) : ¬ Served mutexPool s c := by
  by_cases hopen : (s.registry.kernel.mutexes adminMutex).value = locked
  · cases c with
    | get name t => exact not_served_of_error (getMutex_waits h.guarded hopen)
    | release id t => exact not_served_of_error (bind_of_error (releaseMutex_waits h.guarded hopen))
  · cases c with
    | release id t => exact absurd ⟨hopen,trivial⟩ hc
    | get name t =>
      obtain ⟨hi,hbad⟩ := Classical.not_imp.mp (fun hx => hc ⟨hopen,hx⟩)
      obtain ⟨r,k,hk⟩ : ∃ r k, s.registry.kernel.createMutex t.pid name.1 t.thread = (r,k) := ⟨_,_,rfl⟩
      have hadmin := h.pop (i := adminMutex) (by decide)
      rw [served_of_ok (P := mutexPool) (s := s) (c := .get name t)
        (getMutex_miss h.guarded hopen hadmin hi hk)]
      rintro ⟨⟨id,rfl,-,hfresh⟩,hlists⟩
      obtain ⟨hx,-⟩ | ⟨hx,hu,-,hm,-⟩ := createMutex_cases hk
      · cases hx
      obtain rfl := Option.some.inj hx
      refine hbad ⟨hu,?_⟩
      -- the id is found under its name, so the array spells it
      have hlisted : (s.registry.kernel.firstAvailableMutex,name) ∈ record s.names (.get name t)
          (some s.registry.kernel.firstAvailableMutex) := mem_record
      have hfound := (hlists.find _ _).mpr hlisted
      have hbears := mutexBears_searches.found _ _ hfound
      have hspells := hbears.2.2
      rw [lockSlot_name,hm,Function.update_self] at hspells
      exact spells_copied.mp hspells

end Named
end ComplexOS
