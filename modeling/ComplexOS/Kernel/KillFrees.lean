import ComplexOS.Kernel.KillSemaphores
import ComplexOS.Heap.Ownership

/-! # The end of the process

After the sweeps the memory of the process is freed, which comes back only with `adminMutex`
open.
-/
namespace ComplexOS
open Kernel Call BuddyAllocator

namespace Registry
variable {s s' s₁ s₂ : Registry} {m i pid thread : ℤ} {t : ThreadId} {v : Victim} {u : Unit}
  {b : Bool} {j n : ℕ} {k : Kernel} {hne : t.pid ≠ notUsed} {P Q : Mutex → Prop}

theorem Sane.ordered (h : s.Sane) : Ordered s := ⟨h.guarded,h.sound,h.semaphoreMutex,h.buddyMutex⟩

/-- The tables are those of `s`, the slot of `adminMutex` apart, which is open. -/
structure Finished (s x : Registry) : Prop extends Cleaning (fun m => m.HeldBy none) x where
  mutexes : ∀ j, j ≠ adminMutex → x.kernel.mutexes j = s.kernel.mutexes j
  semaphores : x.kernel.semaphores = s.kernel.semaphores

theorem Finished.of_tables {x y : Registry} (h : Finished s x) (hm : y.kernel.mutexes = x.kernel.mutexes)
    (hf : y.kernel.firstAvailableMutex = x.kernel.firstAvailableMutex)
    (hs : y.kernel.semaphores = x.kernel.semaphores) (hsem : y.semaphoreMutex = x.semaphoreMutex)
    (hb : y.buddyMutex = x.buddyMutex) : Finished s y :=
  ⟨⟨⟨h.guarded.congr (fun _ _ _ => by rw [hm]) hf,by rw [hm]; exact h.sound,
      hsem.trans h.semaphoreMutex,hb.trans h.buddyMutex⟩,by rw [hm]; exact h.gate⟩,
    fun j hj => by rw [hm]; exact h.mutexes j hj,hs.trans h.semaphores⟩

theorem Finished.lockSlot {x : Registry} {w : ℤ} (h : Finished s x)
    (hok : ({ x.kernel.mutexes adminMutex with value := w, lockProcess := t } : Mutex).Ok)
    (ha : ({ x.kernel.mutexes adminMutex with value := w, lockProcess := t } : Mutex).HeldBy none) :
    Finished s { x with kernel := x.kernel.lockSlot adminMutex w t } := by
  refine ⟨⟨⟨h.guarded.lockSlot,fun i hi => ?_,h.semaphoreMutex,h.buddyMutex⟩,?_⟩,fun j hj => ?_,
    h.semaphores⟩
  · show ((x.kernel.lockSlot adminMutex w t).mutexes i).Ok
    by_cases he : i = adminMutex
    · subst he
      rw [lockSlot_self]
      exact hok
    · rw [lockSlot_of_ne he]
      exact h.sound i hi
  · show ((x.kernel.lockSlot adminMutex w t).mutexes adminMutex).HeldBy none
    rw [lockSlot_self]
    exact ha
  · exact (lockSlot_of_ne hj).trans (h.mutexes j hj)

theorem freeMemory_returned {memoryBase : ℕ} (h : freeMemory memoryBase s = .ok (b,s')) :
    BuddyAllocator.isAllocatedPage s.heap memoryBase = some false ∧ s' = s ∨
      BuddyAllocator.isAllocatedPage s.heap memoryBase = some true ∧ ∃ s₁ s₂ heap,
        mutexDown s.buddyMutex s.kernel.caller s = .ok ((),s₁) ∧ s₂ = { s₁ with heap := heap } ∧
        mutexUp s.buddyMutex s.kernel.caller s₂ = .ok ((),s') := by
  unfold freeMemory at h
  rw [get_bind] at h
  cases hp : BuddyAllocator.isAllocatedPage s.heap memoryBase with
  | none =>
    simp only [hp] at h
    cases h
  | some served =>
    cases served with
    | false =>
      simp only [hp] at h
      cases h
      exact Or.inl ⟨rfl,rfl⟩
    | true =>
      simp only [hp] at h
      obtain ⟨⟨⟩,s₁,hdown,h⟩ := bind_ok.mp h
      obtain ⟨r,s₂,hfree,h⟩ := bind_ok.mp h
      obtain ⟨⟨⟩,s₃,hup,h⟩ := bind_ok.mp h
      cases h
      have hpart := partly_ok.mp hfree
      cases hx : BuddyAllocator.freeMemory memoryBase s₁.heap with
      | none =>
        rw [hx] at hpart
        cases hpart
      | some x =>
        rw [hx] at hpart
        cases hpart
        exact Or.inr ⟨rfl,s₁,_,x.2,hdown,rfl,hup⟩

theorem freeMemory_finished {memoryBase : ℕ} (hs : Finished s s₁)
    (h : freeMemory memoryBase s₁ = .ok (b,s')) : Finished s s' := by
  obtain ⟨-,rfl⟩ | ⟨-,x,y,heap,hdown,rfl,hup⟩ := freeMemory_returned h
  · exact hs
  · have hfree : (s₁.kernel.mutexes adminMutex).value ≠ locked := by
      rw [hs.gate.2]
      decide
    rw [hs.buddyMutex] at hdown hup
    have h0 : 0 ≤ adminMutex := le_rfl
    rw [mutexDown_guarded hs.guarded h0 (by decide) hfree] at hdown
    cases hdown
    rw [mutexUp_guarded (k := s₁.kernel) hs.guarded rfl h0 (by decide) hs.gate.pop] at hup
    cases hup
    have hopen : Mutex.HeldBy { s₁.kernel.mutexes adminMutex with
        value := unlocked, lockProcess := s₁.kernel.caller } none := ⟨hs.gate.1,rfl⟩
    have hok : Mutex.Ok { s₁.kernel.mutexes adminMutex with
        value := unlocked, lockProcess := s₁.kernel.caller } :=
      ⟨hs.gate.1.counted,fun _ => by simpa using hs.gate.1.quantity,Or.inr rfl⟩
    exact (hs.lockSlot hok hopen).of_tables rfl rfl rfl rfl rfl

/-- With `adminMutex` shut nothing can be freed. -/
theorem freeMemory_shut {memoryBase : ℕ} (ho : Ordered s)
    (hv : (s.kernel.mutexes adminMutex).value = locked) (h : freeMemory memoryBase s = .ok (b,s')) :
    BuddyAllocator.isAllocatedPage s.heap memoryBase = some false ∧ s' = s := by
  obtain hx | ⟨-,x,y,heap,hdown,-,-⟩ := freeMemory_returned h
  · exact hx
  · rw [ho.buddyMutex] at hdown
    obtain ⟨k,hk,rfl⟩ := mutexDown_ok.mp hdown
    obtain ⟨hx,-⟩ | ⟨-,-,z,hx,-⟩ := mutexDown_cases hk
    · exact absurd (ho.guarded.valid le_rfl (by decide)) hx
    · cases hx with
      | free hf => exact absurd hv hf

theorem deleteThread_ok {thread : Thread} (h : deleteThread thread s = .ok (u,s')) :
    ∃ b, freeMemory thread.memoryBase s = .ok (b,s') := by
  unfold deleteThread at h
  obtain ⟨b,x,hf,h⟩ := bind_ok.mp h
  cases h
  exact ⟨b,hf⟩

/-- What the frees of the end of a process keep. -/
theorem deleteProcess_ok {p : Process} {I : Registry → Prop}
    (hI : ∀ a b x x', I x → freeMemory a x = .ok (b,x') → I x') (h₀ : I s)
    (h : deleteProcess p s = .ok (u,s')) : ∃ b x, I x ∧ freeMemory p.address x = .ok (b,s') := by
  unfold deleteProcess at h
  obtain ⟨⟨⟩,x,hloop,h⟩ := bind_ok.mp h
  obtain ⟨b,y,hfree,h⟩ := bind_ok.mp h
  cases h
  refine ⟨b,x,?_,hfree⟩
  refine forM_range_ok (I := fun _ => I) (fun i _ w w' hw hx => ?_) h₀ hloop
  cases ht : p.threads i with
  | none =>
    simp only [ht] at hx
    cases hx
    exact hw
  | some thread =>
    simp only [ht] at hx
    obtain ⟨b,hf⟩ := deleteThread_ok hx
    exact hI _ b w w' hw hf

theorem removeProcess_ok {p : Process} (hp : s.kernel.processes pid = some p)
    (h : removeProcess pid s = .ok (u,s')) : ∃ x, deleteProcess p s = .ok ((),x) ∧
      s' = { x with kernel := x.kernel.removeProcess pid } := by
  unfold removeProcess at h
  rw [get_bind] at h
  simp only [hp] at h
  obtain ⟨⟨⟩,x,hdelete,h⟩ := bind_ok.mp h
  cases h
  exact ⟨x,hdelete,rfl⟩

theorem removeProcess_finished {p : Process} (hs : Finished s s₁)
    (hp : s₁.kernel.processes pid = some p) (h : removeProcess pid s₁ = .ok (u,s')) :
    Finished s s' := by
  obtain ⟨x,hdelete,rfl⟩ := removeProcess_ok hp h
  obtain ⟨b,y,hy,hfree⟩ := deleteProcess_ok (I := Finished s)
    (fun a b w w' hw hf => freeMemory_finished hw hf) hs hdelete
  exact (freeMemory_finished hy hfree).of_tables rfl rfl rfl rfl rfl

/-- The end of a process comes back only where its memory can be freed. -/
theorem removeProcess_open {p : Process} (ho : Ordered s) (hp : s.kernel.processes pid = some p)
    (ha : BuddyAllocator.isAllocatedPage s.heap p.address = some true)
    (h : removeProcess pid s = .ok (u,s')) : (s.kernel.mutexes adminMutex).value ≠ locked := by
  intro hv
  obtain ⟨x,hdelete,-⟩ := removeProcess_ok hp h
  obtain ⟨b,y,rfl,hfree⟩ := deleteProcess_ok (I := fun x => x = s)
    (fun a b w w' hw hf => by
      subst hw
      exact (freeMemory_shut ho hv hf).2) rfl hdelete
  rw [(freeMemory_shut ho hv hfree).1] at ha
  cases ha

/-! ### The beginning -/

theorem leaveForeground_passes (h : leaveForeground pid s = .ok (u,s')) : Passes s s' ∧
    s'.kernel.mutexes = s.kernel.mutexes ∧ s'.kernel.semaphores = s.kernel.semaphores := by
  unfold leaveForeground at h
  rw [get_bind] at h
  cases hf : s.foreground with
  | none =>
    simp only [hf] at h
    cases h
  | some foreground =>
    simp only [hf] at h
    split at h
    · cases hh : s.kernel.heir pid with
      | none =>
        simp only [hh] at h
        cases h
      | some t =>
        simp only [hh] at h
        rw [modify_bind] at h
        obtain ⟨k,hk,rfl⟩ := piece_ok.mp h
        have hk : s.kernel.changeThreadState t .ready = some k := hk
        obtain ⟨hm,hr⟩ := changeThreadState_table hk
        have hpass : Passes s { s with kernel := k } := Passes.other hm hr.firstAvailableMutex
          hr.usedMutexes (changeThreadState_sameRecords hk)
        exact ⟨⟨hpass.reaches,hpass.records,rfl,rfl,rfl⟩,hm,hr.semaphores⟩
    · cases h
      exact ⟨Passes.refl,rfl,rfl⟩

theorem changeChildrenToOrphan_passes {ppid : ℤ} :
    Passes s { s with kernel := s.kernel.changeChildrenToOrphan pid ppid } :=
  Passes.other rfl rfl rfl changeChildrenToOrphan_sameRecords

theorem freeMemory_returns {a : ℕ} (hs : Finished s s₁) (hh : HeapOk s₁.heap) (ha : InArena a) :
    ∃ b s₂, freeMemory a s₁ = .ok (b,s₂) ∧ Finished s s₂ ∧ HeapOk s₂.heap := by
  suffices ∃ b s₂, freeMemory a s₁ = .ok (b,s₂) ∧ HeapOk s₂.heap by
    obtain ⟨b,s₂,hf,hh₂⟩ := this
    exact ⟨b,s₂,hf,freeMemory_finished hs hf,hh₂⟩
  obtain ⟨b,hb⟩ := isAllocatedPage_isSome hh ha
  have hopen : (s₁.kernel.mutexes adminMutex).value ≠ locked := by
    rw [hs.gate.2]
    decide
  have h0 : 0 ≤ adminMutex := le_rfl
  have hserved : ∃ x h', BuddyAllocator.freeMemory a s₁.heap = some (x,h') ∧ HeapOk h' := by
    obtain ⟨hf,-⟩ | ⟨h',n,hf,-,-,-,-,hrel⟩ := freeMemory_spec hh ha
    · exact ⟨_,_,hf,hh⟩
    · exact ⟨_,_,hf,hrel.ok⟩
  obtain ⟨x,h',hf,hok⟩ := hserved
  unfold freeMemory
  rw [get_bind]
  cases b with
  | false =>
    simp only [hb]
    exact ⟨false,s₁,rfl,hh⟩
  | true =>
    simp only [hb]
    rw [hs.buddyMutex,bind_of_ok (mutexDown_guarded hs.guarded h0 (by decide) hopen),
      bind_of_ok (partly_ok.mpr (by rw [hf]; rfl)),
      bind_of_ok (mutexUp_guarded (k := s₁.kernel) hs.guarded rfl h0 (by decide) hs.gate.pop)]
    exact ⟨true,_,rfl,hok⟩

def Stored (p : Process) : Prop :=
  InArena p.address ∧ ∀ i thread, p.threads i = some thread → InArena thread.memoryBase

theorem deleteProcess_returns {p : Process} (hm : Stored p) :
    Spec (fun x => Finished s x ∧ HeapOk x.heap) (deleteProcess p)
      (fun _ x => Finished s x ∧ HeapOk x.heap) (fun _ => False) := by
  have hfree : ∀ {a}, InArena a → Spec (fun x => Finished s x ∧ HeapOk x.heap) (freeMemory a)
      (fun _ x => Finished s x ∧ HeapOk x.heap) (fun _ => False) := fun ha =>
    Spec.of_total (fun x hx => freeMemory_returns hx.1 hx.2 ha)
  unfold deleteProcess
  refine (Spec.forM_mem (fun i _ => ?_)).bind (fun _ => (hfree hm.1).bind (fun _ =>
    Spec.pure (fun _ h => h)))
  cases ht : p.threads i with
  | none => exact Spec.pure (fun _ h => h)
  | some thread => exact (hfree (hm.2 _ _ ht)).bind (fun _ => Spec.pure (fun _ h => h))

theorem removeProcess_returns {p : Process} (hs : Finished s s₁) (hh : HeapOk s₁.heap)
    (hp : s₁.kernel.processes pid = some p) (hm : Stored p) :
    ∃ s', removeProcess pid s₁ = .ok ((),s') := by
  obtain ⟨⟨⟩,x,hx,-⟩ := (deleteProcess_returns hm).total (s := s₁) ⟨hs,hh⟩
  unfold removeProcess
  rw [get_bind]
  simp only [hp]
  rw [bind_of_ok hx]
  exact ⟨_,rfl⟩

theorem Ordered.lockSlot {m : ℤ} (ho : Ordered s) (h0 : 0 ≤ m) (h1 : m ≤ 1)
    (hv : (s.kernel.mutexes m).value ≠ locked) :
    Ordered { s with kernel := s.kernel.lockSlot m unlocked t } ∧
      ((s.kernel.lockSlot m unlocked t).mutexes m).HeldBy none := by
  have hin : InMutexes m := ⟨h0,by unfold maxMutexes; omega⟩
  have hok := ho.sound m hin
  refine ⟨⟨ho.guarded.lockSlot,fun i hi => ?_,ho.semaphoreMutex,ho.buddyMutex⟩,?_⟩
  · show ((s.kernel.lockSlot m unlocked t).mutexes i).Ok
    by_cases he : i = m
    · subst he
      rw [lockSlot_self]
      exact ⟨hok.counted,fun _ => hok.idle hv,Or.inr rfl⟩
    · rw [lockSlot_of_ne he]
      exact ho.sound i hi
  · rw [lockSlot_self]
    exact ⟨hok.counted.holds_empty (hok.idle hv),rfl⟩

end Registry

end ComplexOS
