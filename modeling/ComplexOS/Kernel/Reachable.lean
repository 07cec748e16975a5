import ComplexOS.Kernel.NamedRegistry

/-! # States of the running kernel

What can change once the kernel has booted: the tables by their pieces of code, the heap
by its requests, and anything else at all. The ids of the locks of the kernel stay.
-/
namespace ComplexOS
open Kernel Call Runs BuddyAllocator

inductive RegistryStep
  | table (l : TableStep)
  | heap (r : Request)
  /-- What belongs to neither the kernel's tables nor the heap. -/
  | rest (x : Registry)

instance : DecidablePred Request.Valid
  | .allocatePages q => inferInstanceAs (Decidable (1 ≤ q ∧ q ≤ pageQuantity))
  | .freeMemory _ => inferInstanceAs (Decidable (_ ∧ _))

namespace Registry
variable (s : Registry)

def move : RegistryStep → Option Registry
  | .table l =>
    if l.ByProcess then
      (MutexTable.step ⟨s.kernel,∅⟩ l).map (fun t => { s with kernel := t.kernel })
    else none
  | .heap r =>
    if r.Valid then (serve ⟨s.heap,[]⟩ r).map (fun t => { s with heap := t.heap }) else none
  | .rest x => some { x with
      kernel := s.kernel
      heap := s.heap
      semaphoreMutex := s.semaphoreMutex
      buddyMutex := s.buddyMutex
      channelMutex := s.channelMutex }

def Reachable : Prop := ∃ s₀ ls, main static = .ok ((),s₀) ∧ run move s₀ ls = some s

def KernelLock (mutex : ℤ) : Prop := mutex = adminMutex ∨ mutex = s.buddyMutex ∨
  mutex = s.semaphoreMutex ∨ mutex = s.channelMutex

def Unlocked : Prop := ∀ m, s.KernelLock m → (s.kernel.mutexes m).value = unlocked

structure Sane : Prop where
  guarded : s.kernel.Guarded
  sound : ∀ i, InMutexes i → (s.kernel.mutexes i).Ok
  semaphoreMutex : s.semaphoreMutex = 1
  buddyMutex : s.buddyMutex = adminMutex
  channelMutex : s.channelMutex = 2
  heap : HeapOk s.heap

variable {s} {s' : Registry} {l : RegistryStep} {m : ℤ}

theorem serve_heapOk {r : Request} {h : Heap} {t : RunState} (hok : HeapOk h) (hr : r.Valid)
    (hs : serve ⟨h,[]⟩ r = some t) : HeapOk t.heap := by
  cases r with
  | allocatePages q =>
    obtain ⟨h',he,-,hok'⟩ := allocatePages_spec hok hr.1 hr.2
    simp only [serve,he,Option.bind_eq_bind,Option.bind_some] at hs
    split at hs
    · cases hs
      exact hok'
    · cases hs
      exact hok'
  | freeMemory a =>
    simp only [serve,Option.bind_eq_bind] at hs
    obtain ⟨he,-⟩ | ⟨h',n,he,-,-,-,-,hrel⟩ := freeMemory_spec hok hr
    · rw [he] at hs
      cases hs
      exact hok
    · rw [he] at hs
      cases hs
      exact hrel.ok

theorem Sane.move (h : s.Sane) (hm : s.move l = some s') : s'.Sane := by
  cases l with
  | table l =>
    obtain ⟨hl,hm⟩ := Option.ite_none_right_eq_some.mp hm
    obtain ⟨t,ht,rfl⟩ := Option.map_eq_some_iff.mp hm
    exact ⟨Guarded.step (s := ⟨s.kernel,∅⟩) h.guarded hl ht,
      MutexTable.step_sound (s := ⟨s.kernel,∅⟩) h.sound ht,h.semaphoreMutex,h.buddyMutex,
      h.channelMutex,h.heap⟩
  | heap r =>
    obtain ⟨hr,hm⟩ := Option.ite_none_right_eq_some.mp hm
    obtain ⟨t,ht,rfl⟩ := Option.map_eq_some_iff.mp hm
    exact ⟨h.guarded,h.sound,h.semaphoreMutex,h.buddyMutex,h.channelMutex,
      serve_heapOk h.heap hr ht⟩
  | rest x =>
    cases hm
    exact ⟨h.guarded,h.sound,h.semaphoreMutex,h.buddyMutex,h.channelMutex,h.heap⟩

theorem Booted.sane (h : s.Booted) : s.Sane := by
  refine ⟨h.guarded,fun i hi => ?_,h.semaphoreMutex,h.buddyMutex,h.channelMutex,h.heap⟩
  rw [h.mutexes i hi]
  exact (Kernel.static.mutexes 0).clear_ok.congr bootMutex_list (bootMutex_value.trans rfl)

theorem Reachable.boot (hm : main static = .ok ((),s)) : s.Reachable := ⟨s,[],hm,rfl⟩

theorem Booted.unlocked (h : s.Booted) : s.Unlocked := by
  intro m hm
  have hrange : InMutexes m := by
    unfold KernelLock at hm
    rw [h.buddyMutex,h.semaphoreMutex,h.channelMutex] at hm
    rcases hm with rfl | rfl | rfl | rfl <;> decide
  rw [h.mutexes m hrange]
  exact bootMutex_value

theorem Reachable.sane (h : s.Reachable) : s.Sane := by
  obtain ⟨s₀,ls,hm,hr⟩ := h
  obtain ⟨s₁,hs₁,hb⟩ := main_booted
  rw [hs₁] at hm
  cases hm
  exact Runs.invariant (fun _ _ _ => Sane.move) hb.sane hr

end Registry
end ComplexOS
