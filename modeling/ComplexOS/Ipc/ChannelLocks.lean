import ComplexOS.Ipc.ChannelCalls
import ComplexOS.Kernel.LockBalance

/-! # The lock of the channels

`createChannel` keeps `channelMutex` when the channel is there already. Its four creations
keep `adminMutex` as soon as one of their names is found, and what they leave in the tables
without that is what the creations alone leave there.
-/
namespace ComplexOS
open Kernel Call

namespace Kernel
variable {k : Kernel} {m i : ℤ} {t : ThreadId}

/-- A mutex that is given up again has changed its holder on record only, and the slot
behind it looks valid. -/
theorem cycle_slot (hv : (k.mutexes m).value = unlocked) :
    ((k.cycle m t).mutexes i).value = (k.mutexes i).value ∧
    ((k.cycle m t).mutexes i).list = (k.mutexes i).list ∧
    (k.isValidMutex i → (k.cycle m t).isValidMutex i) := by
  by_cases he : i = m
  · subst he
    unfold isValidMutex
    rw [cycle_self]
    exact ⟨hv.symm,rfl,id⟩
  · obtain ⟨hl,hx,-,-,hc⟩ := marked_of_ne (k := k) (m := { k.mutexes m with
      value := unlocked
      lockProcess := t }) he
    refine ⟨hx,hl,fun hi => ⟨hi.1,hi.2.1,?_⟩⟩
    show (marked k m _ i).creator.pid ≠ notUsed
    obtain hc | ⟨-,hc⟩ := hc
    · rw [hc]
      exact hi.2.2
    · rw [hc]
      exact (by decide : (0 : ℤ) ≠ notUsed)

theorem setSemaphore_list {semaphore : ℤ} {x : Semaphore}
    (hx : x.list = (k.semaphores semaphore).list) :
    ((k.setSemaphore semaphore x).semaphores i).list = (k.semaphores i).list := by
  by_cases he : i = semaphore
  · subst he
    rw [setSemaphore_semaphores_self]
    exact hx
  · exact congrArg Semaphore.list (Function.update_of_ne he _ _)

end Kernel

namespace Registry
variable {s s' d : Registry} {name : List UInt8} {pid thread i m semaphore v : ℤ} {t : ThreadId}
  {r : Option ℤ} {k : Kernel} {α : Type}

instance (s : Registry) (name : List UInt8) : Decidable (s.HasRoom name) :=
  inferInstanceAs (Decidable (_ ∧ _))

/-- `createSemaphore` without the lock of `getMutex` and without a mutex of that name. -/
def registerSemaphore (pid : ℤ) (name : List UInt8) (thread : ℤ) (s : Registry) :
    Option ℤ × Registry :=
  if s.HasRoom name then
    let x := (claimSemaphore pid name thread s).kernel.createMutex pid name thread
    let claimed := { claimSemaphore pid name thread s with kernel := x.2 }
    match x.1 with
    | none => (none,claimed)
    | some mutex => (some s.firstAvailableSemaphore,completeSemaphore mutex claimed)
  else (none,s)

def Vacant (s : Registry) (name : List UInt8) : Prop := s.HasRoom name → s.kernel.findMutex name = none

/-- `d` with `adminMutex` unlocked by some thread, and another heap. -/
def Unlocks (d s : Registry) : Prop :=
  ∃ t, s = { d with kernel := d.kernel.lockSlot adminMutex unlocked t, heap := s.heap }

/-- `adminMutex` is locked, and nothing brings it back. -/
def Leaked (s : Registry) : Prop :=
  s.kernel.Guarded ∧ (s.kernel.mutexes adminMutex).value = locked

theorem Leaked.not_unlocked (h : s.Leaked) : ¬ s.Unlocked := by
  intro hu
  have hv := hu adminMutex (Or.inl rfl)
  rw [h.2] at hv
  exact absurd hv (by decide)

def StaysLeaked (x : KernelCall α) : Prop :=
  Spec Leaked x (fun _ => Leaked) (fun _ => True)

theorem StaysLeaked.not_balances {x : KernelCall α} (hx : StaysLeaked x) (h : s.Leaked) :
    ¬ Balances x s := fun ⟨a,s',hr,hu⟩ => (hx.ok s a s' h hr).not_unlocked hu

/-- A `mutexDown` that comes back has taken a free mutex, or passed over one without creator. -/
theorem mutexDown_returned {u : Unit} : mutexDown m t s = .ok (u,s') ↔
    (¬ s.kernel.isValidMutex m ∧ s' = s) ∨
      (s.kernel.isValidMutex m ∧ (s.kernel.mutexes m).value ≠ locked ∧
        s' = { s with kernel := s.kernel.take m t }) := by
  by_cases hv : s.kernel.isValidMutex m
  · by_cases hl : (s.kernel.mutexes m).value = locked
    · rw [mutexDown_waits hv hl]
      simp [hv,hl]
    · rw [mutexDown_free hv hl]
      simp [hv,hl,eq_comm]
  · have hx : mutexDown m t s = .ok ((),s) := mutexDown_ok.mpr ⟨_,mutexDown_invalid hv,rfl⟩
    rw [hx]
    simp [hv,eq_comm]

theorem mutexDown_leaked : StaysLeaked (mutexDown m t) := by
  refine ⟨fun s u s' h hx => ?_,fun _ _ _ _ => trivial⟩
  obtain ⟨-,rfl⟩ | ⟨-,hopen,rfl⟩ := mutexDown_returned.mp hx
  · exact h
  · have hne : adminMutex ≠ m := fun he => hopen (he ▸ h.2)
    refine ⟨h.1.take,?_⟩
    show (marked s.kernel m _ adminMutex).value = locked
    rw [(marked_of_ne hne).2.1]
    exact h.2

theorem mutexUp_leaked (hne : m ≠ adminMutex) : StaysLeaked (mutexUp m t) := by
  refine ⟨fun s u s' h hx => ?_,fun _ _ _ _ => trivial⟩
  obtain ⟨k,hk,rfl⟩ := mutexUp_ok.mp hx
  obtain ⟨-,rfl⟩ | ⟨-,-,hr,x,hg,hm⟩ := mutexUp_cases hk
  · exact h
  · refine ⟨h.1.update hm (by cases hg <;> rfl) hr.firstAvailableMutex,?_⟩
    rw [hm,Function.update_of_ne hne.symm]
    exact h.2

theorem createSemaphore_leaked : StaysLeaked (createSemaphore pid name thread) := by
  refine ⟨fun s r s' h hx => ?_,fun _ _ _ _ => trivial⟩
  obtain ⟨-,-,rfl⟩ | ⟨-,-,x,s₁,hget,-⟩ := createSemaphore_ok hx
  · exact h
  · have hwait : getMutex name pid thread (claimSemaphore pid name thread s) = _ :=
      getMutex_waits (h.1.congr (fun _ _ _ => rfl) rfl) h.2
    rw [hwait] at hget
    cases hget

/-- The mutex of a semaphore is not `adminMutex` if it could be taken. -/
theorem setValue_leaked : StaysLeaked (setValue semaphore v) := by
  refine ⟨fun s u s' h hx => ?_,fun _ _ _ _ => trivial⟩
  unfold setValue at hx
  rw [get_bind] at hx
  split at hx
  · obtain ⟨⟨⟩,s₁,hd,hx⟩ := bind_ok.mp hx
    have h₁ := mutexDown_leaked.ok s _ s₁ h hd
    have hne : (s.kernel.semaphores semaphore).mutex ≠ adminMutex := by
      intro he
      obtain ⟨hv,-⟩ | ⟨-,hopen,-⟩ := mutexDown_returned.mp hd
      · exact hv (he ▸ h.1.valid (by decide) (by decide))
      · exact hopen (he ▸ h.2)
    exact (mutexUp_leaked hne).ok (writeValue semaphore v s₁) _ s'
      ⟨h₁.1.congr (fun _ _ _ => rfl) rfl,h₁.2⟩ hx
  · cases hx
    exact h

theorem addChannelToList_leaked {x : ChannelNode} : StaysLeaked (modify (addChannelToList x)) :=
  Spec.update (fun _ h => h)

structure Orderly (s : Registry) : Prop where
  guarded : s.kernel.Guarded
  sound : ∀ i, InMutexes i → (s.kernel.mutexes i).Ok
  admin : (s.kernel.mutexes adminMutex).value = unlocked

theorem Orderly.pop (h : s.Orderly) (hm : InMutexes m) (hv : (s.kernel.mutexes m).value ≠ locked) :
    (s.kernel.mutexes m).list.pop = none :=
  (h.sound m hm).counted.pop_none.mpr ((h.sound m hm).idle hv)

theorem Orderly.admin_pop (h : s.Orderly) : (s.kernel.mutexes adminMutex).list.pop = none :=
  h.pop (by decide) (by rw [h.admin]; decide)

/-- The ways of a creation that meets no lock: no room, no mutex, and both slots written. -/
theorem registerSemaphore_cases (s : Registry) (pid : ℤ) (name : List UInt8) (thread : ℤ) :
    (¬ s.HasRoom name ∧ registerSemaphore pid name thread s = (none,s)) ∨
      (s.HasRoom name ∧
        registerSemaphore pid name thread s = (none,claimSemaphore pid name thread s)) ∨
      (s.HasRoom name ∧ ∃ k,
        (claimSemaphore pid name thread s).kernel.createMutex pid name thread =
          (some s.kernel.firstAvailableMutex,k) ∧
        registerSemaphore pid name thread s = (some s.firstAvailableSemaphore,
          completeSemaphore s.kernel.firstAvailableMutex
            { claimSemaphore pid name thread s with kernel := k })) := by
  unfold registerSemaphore
  by_cases hroom : s.HasRoom name
  · obtain ⟨r,k,hk⟩ : ∃ r k, (claimSemaphore pid name thread s).kernel.createMutex pid name thread =
      (r,k) := ⟨_,_,rfl⟩
    rw [if_pos hroom,hk]
    obtain ⟨rfl,-,rfl⟩ | ⟨rfl,-⟩ := createMutex_cases hk
    · exact Or.inr (Or.inl ⟨hroom,rfl⟩)
    · exact Or.inr (Or.inr ⟨hroom,k,rfl,rfl⟩)
  · rw [if_neg hroom]
    exact Or.inl ⟨hroom,rfl⟩

structure Registers (pid : ℤ) (s s' : Registry) : Prop extends SameLocks s s' where
  waiters : ∀ i, (s'.kernel.semaphores i).list = (s.kernel.semaphores i).list
  mutexes : s'.kernel.mutexes = s.kernel.mutexes ∨ ∃ name thread, s'.kernel.mutexes =
    Function.update s.kernel.mutexes s.kernel.firstAvailableMutex
      (named (s.kernel.mutexes s.kernel.firstAvailableMutex) name ⟨pid,thread⟩)
  guarded : s.kernel.Guarded → s'.kernel.Guarded

theorem registerSemaphore_registers (s : Registry) (pid : ℤ) (name : List UInt8) (thread : ℤ) :
    Registers pid s (registerSemaphore pid name thread s).2 := by
  obtain ⟨-,he⟩ | ⟨-,he⟩ | ⟨-,k,hk,he⟩ := registerSemaphore_cases s pid name thread
  · rw [he]
    exact ⟨⟨rfl,rfl,rfl⟩,fun _ => rfl,Or.inl rfl,id⟩
  · rw [he]
    exact ⟨⟨rfl,rfl,rfl⟩,fun i => setSemaphore_list rfl,Or.inl rfl,
      fun h => h.congr (fun _ _ _ => rfl) rfl⟩
  · rw [he]
    obtain ⟨hx,-⟩ | ⟨-,-,-,hm,-,-,hs,-⟩ := createMutex_cases hk
    · cases hx
    · refine ⟨⟨rfl,rfl,rfl⟩,fun i => ?_,Or.inr ⟨name,thread,hm⟩,fun h => ?_⟩
      · have hcomplete : ((k.setSemaphore s.firstAvailableSemaphore
            { k.semaphores s.firstAvailableSemaphore with
              mutex := s.kernel.firstAvailableMutex }).semaphores i).list = _ := setSemaphore_list rfl
        refine hcomplete.trans ?_
        rw [hs]
        exact setSemaphore_list rfl
      have hg : (claimSemaphore pid name thread s).kernel.Guarded := h.congr (fun _ _ _ => rfl) rfl
      exact (hg.createMutex hk).congr (fun _ _ _ => rfl) rfl

namespace Registers

theorem slot (h : Registers pid s s') :
    (s'.kernel.mutexes m).value = (s.kernel.mutexes m).value ∧
    (s'.kernel.mutexes m).list = (s.kernel.mutexes m).list := by
  obtain hm | ⟨name,thread,hm⟩ := h.mutexes
  · rw [hm]
    exact ⟨rfl,rfl⟩
  · rw [hm]
    by_cases he : m = s.kernel.firstAvailableMutex
    · subst he
      rw [Function.update_self]
      exact ⟨rfl,rfl⟩
    · rw [Function.update_of_ne he]
      exact ⟨rfl,rfl⟩

theorem low (h : Registers pid s s') (hg : s.kernel.Guarded) (h0 : 0 ≤ m) (h2 : m ≤ 2) :
    s'.kernel.mutexes m = s.kernel.mutexes m := by
  obtain hm | ⟨name,thread,hm⟩ := h.mutexes
  · rw [hm]
  · rw [hm,Function.update_of_ne (hg.first_ne h0 h2).symm]

/-- The slots that this creator has stay its own. -/
theorem creator (h : Registers pid s s') (hc : (s.kernel.mutexes m).creator.pid = pid) :
    (s'.kernel.mutexes m).creator.pid = pid := by
  obtain hm | ⟨name,thread,hm⟩ := h.mutexes
  · rw [hm]
    exact hc
  · rw [hm]
    by_cases he : m = s.kernel.firstAvailableMutex
    · subst he
      rw [Function.update_self]
      rfl
    · rw [Function.update_of_ne he]
      exact hc

theorem orderly (h : Registers pid s s') (ho : s.Orderly) : s'.Orderly := by
  refine ⟨h.guarded ho.guarded,fun i hi => ?_,?_⟩
  · obtain ⟨hv,hl⟩ := h.slot (m := i)
    exact (ho.sound i hi).congr hl hv
  · rw [h.slot.1]
    exact ho.admin

end Registers

/-- A semaphore of this creator, with a mutex that is its creator's, too, and is none of the
kernel's own. -/
structure Settled (pid : ℤ) (s : Registry) (semaphore : ℤ) : Prop where
  creator : (s.kernel.semaphores semaphore).creator.pid = pid
  apart : ¬ (0 ≤ (s.kernel.semaphores semaphore).mutex ∧ (s.kernel.semaphores semaphore).mutex ≤ 2)
  mutex : (s.kernel.mutexes (s.kernel.semaphores semaphore).mutex).creator.pid = pid

/-- A slot of the semaphores after a creation. -/
theorem registerSemaphore_slot (s : Registry) (pid : ℤ) (name : List UInt8) (thread i : ℤ) :
    (registerSemaphore pid name thread s).2.kernel.semaphores i = s.kernel.semaphores i ∨
      i = s.firstAvailableSemaphore ∧
        ((registerSemaphore pid name thread s).2.kernel.semaphores i).creator.pid = pid ∧
        (((registerSemaphore pid name thread s).1 = none ∧
          ((registerSemaphore pid name thread s).2.kernel.semaphores i).mutex =
            (s.kernel.semaphores i).mutex) ∨
          ((registerSemaphore pid name thread s).2.kernel.semaphores i).mutex =
              s.kernel.firstAvailableMutex ∧
            (registerSemaphore pid name thread s).2.kernel.mutexes =
              Function.update s.kernel.mutexes s.kernel.firstAvailableMutex
                (named (s.kernel.mutexes s.kernel.firstAvailableMutex) name ⟨pid,thread⟩)) := by
  obtain ⟨-,he⟩ | ⟨-,he⟩ | ⟨-,k,hk,he⟩ := registerSemaphore_cases s pid name thread
  · rw [he]
    exact Or.inl rfl
  · rw [he]
    by_cases hi : i = s.firstAvailableSemaphore
    · subst hi
      exact Or.inr ⟨rfl,by simp [claimSemaphore],Or.inl ⟨rfl,by simp [claimSemaphore]⟩⟩
    · exact Or.inl (Function.update_of_ne hi _ _)
  · obtain ⟨hx,-⟩ | ⟨-,-,-,hm,-,-,hs,-⟩ := createMutex_cases hk
    · cases hx
    · rw [he]
      by_cases hi : i = s.firstAvailableSemaphore
      · subst hi
        have hself : k.semaphores s.firstAvailableSemaphore =
            (claimSemaphore pid name thread s).kernel.semaphores s.firstAvailableSemaphore := by
          rw [hs]
        refine Or.inr ⟨rfl,?_,Or.inr ⟨?_,hm⟩⟩
        · show (Function.update k.semaphores s.firstAvailableSemaphore _ _).creator.pid = pid
          rw [Function.update_self]
          show (k.semaphores s.firstAvailableSemaphore).creator.pid = pid
          rw [hself]
          simp [claimSemaphore]
        · show (Function.update k.semaphores s.firstAvailableSemaphore _ _).mutex = _
          rw [Function.update_self]
      · refine Or.inl ?_
        show Function.update k.semaphores s.firstAvailableSemaphore _ i = _
        rw [Function.update_of_ne hi,hs]
        exact Function.update_of_ne hi _ _

theorem Settled.of_mutexes {x : Semaphore} (hg : s.kernel.Guarded)
    (hx : s'.kernel.semaphores semaphore = x) (hc : x.creator.pid = pid)
    (hm : x.mutex = s.kernel.firstAvailableMutex)
    (hs : s'.kernel.mutexes = Function.update s.kernel.mutexes s.kernel.firstAvailableMutex
      (named (s.kernel.mutexes s.kernel.firstAvailableMutex) name ⟨pid,thread⟩)) :
    Settled pid s' semaphore := by
  refine ⟨by rw [hx]; exact hc,?_,?_⟩
  · rw [hx,hm]
    exact hg.first
  · rw [hx,hm,hs,Function.update_self]
    rfl

theorem Settled.register (h : Settled pid s semaphore) (hg : s.kernel.Guarded) :
    Settled pid (registerSemaphore pid name thread s).2 semaphore := by
  have hr : Registers pid s (registerSemaphore pid name thread s).2 :=
    registerSemaphore_registers s pid name thread
  obtain he | ⟨-,hc,⟨-,hm⟩ | ⟨hm,hs⟩⟩ := registerSemaphore_slot s pid name thread semaphore
  · exact ⟨by rw [he]; exact h.creator,by rw [he]; exact h.apart,
      by rw [he]; exact hr.creator h.mutex⟩
  · exact ⟨hc,by rw [hm]; exact h.apart,by rw [hm]; exact hr.creator h.mutex⟩
  · exact .of_mutexes hg rfl hc hm hs

/-- The semaphore that a creation answers. -/
theorem registerSemaphore_settled (hg : s.kernel.Guarded)
    (h : (registerSemaphore pid name thread s).1 = some semaphore) :
    Settled pid (registerSemaphore pid name thread s).2 semaphore := by
  obtain ⟨-,he⟩ | ⟨-,he⟩ | ⟨-,k,hk,he⟩ := registerSemaphore_cases s pid name thread
  · rw [he] at h
    cases h
  · rw [he] at h
    cases h
  · obtain ⟨hx,-⟩ | ⟨-,-,-,hm,-,-,hs,-⟩ := createMutex_cases hk
    · cases hx
    · rw [he] at h ⊢
      cases h
      refine .of_mutexes hg (Function.update_self _ _ _) ?_ rfl hm
      show (k.semaphores s.firstAvailableSemaphore).creator.pid = pid
      rw [hs]
      simp [claimSemaphore]

/-- The creation does to the tables what it does without locks, once its name is vacant. -/
theorem createSemaphore_registers (ho : d.Orderly) (hl : Unlocks d s) (hv : d.Vacant name) :
    ∃ s', createSemaphore pid name thread s = .ok ((registerSemaphore pid name thread d).1,s') ∧
      Unlocks (registerSemaphore pid name thread d).2 s' := by
  obtain ⟨u,hs⟩ := hl
  have hfirst : d.kernel.firstAvailableMutex ≠ adminMutex := ho.guarded.first_ne (by decide) (by decide)
  have hclaim : claimSemaphore pid name thread s = { claimSemaphore pid name thread d with
      kernel := (claimSemaphore pid name thread d).kernel.lockSlot adminMutex unlocked u
      heap := s.heap } := by
    rw [hs]
    rfl
  have hroom : s.HasRoom name ↔ d.HasRoom name := by
    rw [hs]
    rfl
  by_cases hr : d.HasRoom name
  · have hg : (claimSemaphore pid name thread d).kernel.Guarded := ho.guarded.congr (fun _ _ _ => rfl) rfl
    obtain ⟨r,k,hk⟩ : ∃ r k, (claimSemaphore pid name thread d).kernel.createMutex pid name thread =
      (r,k) := ⟨_,_,rfl⟩
    have hlocked : ((claimSemaphore pid name thread d).kernel.lockSlot adminMutex unlocked
        u).createMutex pid name thread = _ := createMutex_lockSlot hfirst
    have hget : getMutex name pid thread (claimSemaphore pid name thread s) =
        .ok (r,{ claimSemaphore pid name thread d with
          kernel := k.lockSlot adminMutex unlocked ⟨pid,thread⟩
          heap := s.heap }) := by
      rw [hclaim,getMutex_miss hg.lockSlot
        (by rw [lockSlot_self]; exact (by decide : unlocked ≠ locked)) (by rw [lockSlot_list]; exact ho.admin_pop) (by rw [findMutex_lockSlot]; exact hv hr)
        (hlocked.trans (by rw [hk]))]
      simp only [lockSlot_lockSlot]
    unfold createSemaphore registerSemaphore
    rw [get_bind,if_pos (show s.usedSemaphores < maxSemaphores ∧ name.length < maxName from
      hroom.mpr hr),modify_bind,bind_of_ok hget,if_pos hr,hk]
    cases r with
    | none => exact ⟨_,rfl,_,rfl⟩
    | some m =>
      have hanswer : s.firstAvailableSemaphore = d.firstAvailableSemaphore := by rw [hs]
      rw [hanswer]
      exact ⟨completeSemaphore m { claimSemaphore pid name thread d with
        kernel := k.lockSlot adminMutex unlocked ⟨pid,thread⟩
        heap := s.heap },rfl,⟨pid,thread⟩,rfl⟩
  · refine ⟨s,?_,u,?_⟩
    · unfold registerSemaphore
      rw [createSemaphore_none (fun hx => hr (hroom.mp hx)),if_neg hr]
    · unfold registerSemaphore
      rw [if_neg hr]
      exact hs

/-- A creation loses the lock if its name is found. -/
theorem createSemaphore_balances {f : Option ℤ → KernelCall α} (ho : d.Orderly)
    (hl : Unlocks d s) (hf : ∀ r, StaysLeaked (f r)) :
    ∃ s', Registers pid d (registerSemaphore pid name thread d).2 ∧
      Unlocks (registerSemaphore pid name thread d).2 s' ∧
      (Balances (createSemaphore pid name thread >>= f) s ↔
        d.Vacant name ∧ Balances (f (registerSemaphore pid name thread d).1) s') := by
  by_cases hv : d.Vacant name
  · obtain ⟨s',hcall,hl'⟩ : ∃ s', createSemaphore pid name thread s = _ ∧ _ :=
      createSemaphore_registers ho hl hv
    refine ⟨s',registerSemaphore_registers d pid name thread,hl',?_⟩
    unfold Balances
    rw [bind_of_ok hcall]
    simp [hv]
  · obtain ⟨u,hs⟩ := id hl
    refine ⟨{ (registerSemaphore pid name thread d).2 with
      kernel := (registerSemaphore pid name thread d).2.kernel.lockSlot adminMutex unlocked u },
      registerSemaphore_registers d pid name thread,⟨u,rfl⟩,fun hx => absurd hx ?_,
      fun hx => absurd hx.1 hv⟩
    obtain ⟨hroom,hfound⟩ := Classical.not_imp.mp hv
    have hadmin : s.kernel.mutexes adminMutex = { d.kernel.mutexes adminMutex with
        value := unlocked
        lockProcess := u } := by
      rw [hs]
      exact lockSlot_self
    have hg : s.kernel.Guarded := by
      rw [hs]
      exact ho.guarded.lockSlot
    obtain ⟨r,s₁,hcall,hc⟩ : ∃ r s₁, createSemaphore pid name thread s = .ok (r,s₁) ∧ _ :=
      createSemaphore_creates hg (by rw [hadmin]) (by rw [hadmin]; exact ho.admin_pop)
    have hleak : s.HasRoom name ∧ s.kernel.findMutex name ≠ none := by
      rw [hs]
      exact ⟨hroom,by rw [findMutex_lockSlot]; exact hfound⟩
    unfold Balances
    rw [bind_of_ok hcall]
    exact (hf r).not_balances ⟨hc.guarded,hc.leaked hleak⟩

def Shut (s : Registry) (semaphore : ℤ) : Prop :=
  s.kernel.isValidSemaphore semaphore ∧ s.kernel.isValidMutex (s.kernel.semaphores semaphore).mutex ∧
    (s.kernel.mutexes (s.kernel.semaphores semaphore).mutex).value = locked

def Served (s : Registry) (semaphore : ℤ) : Prop :=
  s.kernel.isValidSemaphore semaphore →
    ¬ (0 ≤ (s.kernel.semaphores semaphore).mutex ∧ (s.kernel.semaphores semaphore).mutex ≤ 2) ∧
      (InMutexes (s.kernel.semaphores semaphore).mutex →
        s.kernel.isValidMutex (s.kernel.semaphores semaphore).mutex)

theorem Settled.served (h : Settled pid s semaphore) : Served s semaphore := by
  intro hv
  refine ⟨h.apart,fun hm => ⟨hm.1,hm.2,?_⟩⟩
  rw [h.mutex,← h.creator]
  exact hv.2.2

structure Sets (s s' : Registry) : Prop extends SameLocks s s' where
  waiters : ∀ i, (s'.kernel.semaphores i).list = (s.kernel.semaphores i).list
  guarded : s'.kernel.Guarded
  sound : ∀ i, InMutexes i → (s'.kernel.mutexes i).Ok
  low : ∀ i, 0 ≤ i → i ≤ 2 → s'.kernel.mutexes i = s.kernel.mutexes i
  valid : ∀ i, s.kernel.isValidMutex i → s'.kernel.isValidMutex i
  value : ∀ i, (s'.kernel.mutexes i).value = locked ↔ (s.kernel.mutexes i).value = locked
  creator : ∀ i, (s'.kernel.semaphores i).creator = (s.kernel.semaphores i).creator
  mutex : ∀ i, (s'.kernel.semaphores i).mutex = (s.kernel.semaphores i).mutex

theorem writeValue_slot : ((writeValue semaphore v s).kernel.semaphores i).creator =
      (s.kernel.semaphores i).creator ∧
    ((writeValue semaphore v s).kernel.semaphores i).mutex = (s.kernel.semaphores i).mutex := by
  by_cases he : i = semaphore
  · subst he
    simp [writeValue]
  · have hx : (writeValue semaphore v s).kernel.semaphores i = s.kernel.semaphores i :=
      Function.update_of_ne he _ _
    rw [hx]
    exact ⟨rfl,rfl⟩

theorem setValue_cases (hg : s.kernel.Guarded) (hok : ∀ i, InMutexes i → (s.kernel.mutexes i).Ok)
    (hs : Served s semaphore) :
    (s.Shut semaphore ∧ ∃ e, setValue semaphore v s = .error e) ∨
      (¬ s.Shut semaphore ∧ ∃ s', setValue semaphore v s = .ok ((),s') ∧ Sets s s') := by
  unfold setValue
  rw [get_bind]
  by_cases hv : s.kernel.isValidSemaphore semaphore
  · rw [if_pos hv]
    obtain ⟨hapart,-⟩ := hs hv
    generalize hm : (s.kernel.semaphores semaphore).mutex = m at hapart
    by_cases hvm : s.kernel.isValidMutex m
    · by_cases hl : (s.kernel.mutexes m).value = locked
      · exact Or.inl ⟨⟨hv,hm ▸ hvm,hm ▸ hl⟩,_,bind_of_error (mutexDown_waits hvm hl)⟩
      · obtain ⟨h0,h1⟩ : 0 ≤ m ∧ m < maxMutexes := ⟨hvm.1,hvm.2.1⟩
        have hopen := (hok m ⟨h0,h1⟩).open_value hl
        have hpop := (hok m ⟨h0,h1⟩).counted.pop_none.mpr ((hok m ⟨h0,h1⟩).idle hl)
        refine Or.inr ⟨fun hx => hl (hm ▸ hx.2.2),{ writeValue semaphore v s with
          kernel := (writeValue semaphore v s).kernel.cycle m s.kernel.caller },?_,?_⟩
        · rw [bind_of_ok (mutexDown_free hvm hl),modify_bind]
          exact mutexUp_free (k := (writeValue semaphore v s).kernel) rfl hvm hpop
        · have hslot : ∀ i, _ ∧ _ ∧ _ := fun i => cycle_slot (k := (writeValue semaphore v s).kernel)
            (i := i) (t := s.kernel.caller) hopen
          refine ⟨⟨rfl,rfl,rfl⟩,fun _ => setSemaphore_list rfl,Guarded.cycle (hg.congr (fun _ _ _ => rfl) rfl),
            fun i hi => (hok i hi).congr (hslot i).2.1 (hslot i).1,fun i h0 h2 => ?_,
            fun i => (hslot i).2.2,fun i => by rw [(hslot i).1]; rfl,fun _ => writeValue_slot.1,
            fun _ => writeValue_slot.2⟩
          exact cycle_far (by omega) (by omega)
    · have hpass : s.kernel.mutexDown m s.kernel.caller = _ := mutexDown_invalid hvm
      refine Or.inr ⟨fun hx => hvm (hm ▸ hx.2.1),writeValue semaphore v s,?_,?_⟩
      · rw [bind_of_ok (a := ()) (mutexDown_ok.mpr ⟨_,hpass,rfl⟩),modify_bind]
        exact mutexUp_ok.mpr ⟨_,mutexUp_ignored (fun hx => hvm hx.1),rfl⟩
      · exact ⟨⟨rfl,rfl,rfl⟩,fun _ => setSemaphore_list rfl,hg.congr (fun _ _ _ => rfl) rfl,hok,
          fun _ _ _ => rfl,fun _ => id,fun _ => Iff.rfl,fun _ => writeValue_slot.1,
          fun _ => writeValue_slot.2⟩
  · rw [if_neg hv]
    exact Or.inr ⟨fun hx => hv hx.1,s,rfl,⟨rfl,rfl,rfl⟩,fun _ => rfl,hg,hok,fun _ _ _ => rfl,
      fun _ => id,fun _ => Iff.rfl,fun _ => rfl,fun _ => rfl⟩

theorem Sets.shut_iff (h : Sets s s') (hs : Served s semaphore) : s'.Shut semaphore ↔ s.Shut semaphore := by
  unfold Shut isValidSemaphore
  rw [h.creator,h.mutex,h.value]
  constructor
  · rintro ⟨hv,hm,hl⟩
    exact ⟨hv,(hs hv).2 ⟨hm.1,hm.2.1⟩,hl⟩
  · rintro ⟨hv,hm,hl⟩
    exact ⟨hv,h.valid _ hm,hl⟩

theorem Sets.served (h : Sets s s') (hs : Served s semaphore) : Served s' semaphore := by
  intro hv
  unfold isValidSemaphore at hv
  rw [h.creator] at hv
  rw [h.mutex]
  exact ⟨(hs hv).1,fun hm => h.valid _ ((hs hv).2 hm)⟩

theorem setValue_balances {f : Unit → KernelCall α} (hg : s.kernel.Guarded)
    (hok : ∀ i, InMutexes i → (s.kernel.mutexes i).Ok) (hs : Served s semaphore) :
    ∃ s', Sets s s' ∧
      (Balances (setValue semaphore v >>= f) s ↔ ¬ s.Shut semaphore ∧ Balances (f ()) s') := by
  obtain ⟨hshut,e,he⟩ | ⟨hopen,s',hcall,hsets⟩ : _ ∨ _ := setValue_cases (v := v) hg hok hs
  · refine ⟨s,⟨⟨rfl,rfl,rfl⟩,fun _ => rfl,hg,hok,fun _ _ _ => rfl,fun _ => id,fun _ => Iff.rfl,
      fun _ => rfl,fun _ => rfl⟩,?_⟩
    exact ⟨fun hx => absurd hx (not_balances_of_error (bind_of_error he)),
      fun hx => absurd hshut hx.1⟩
  · refine ⟨s',hsets,?_⟩
    unfold Balances
    rw [bind_of_ok hcall]
    simp [hopen]

namespace Unlocks

theorem slot (h : Unlocks d s) (hm : m ≠ adminMutex) : s.kernel.mutexes m = d.kernel.mutexes m := by
  obtain ⟨t,hs⟩ := h
  rw [hs]
  exact lockSlot_of_ne hm

theorem served (h : Unlocks d s) (hs : Served d semaphore) : Served s semaphore := by
  obtain ⟨t,he⟩ := h
  rw [he]
  intro hv
  exact ⟨(hs hv).1,fun hm => isValidMutex_lockSlot.mpr ((hs hv).2 hm)⟩

theorem orderly (h : Unlocks d s) (ho : d.Orderly) : s.Orderly := by
  obtain ⟨t,hs⟩ := h
  rw [hs]
  refine ⟨ho.guarded.lockSlot,fun i hi => ?_,?_⟩
  · by_cases he : i = adminMutex
    · subst he
      refine (ho.sound _ hi).congr lockSlot_list ?_
      show ((d.kernel.lockSlot adminMutex unlocked t).mutexes adminMutex).value = _
      rw [lockSlot_self,ho.admin]
    · show ((d.kernel.lockSlot adminMutex unlocked t).mutexes i).Ok
      rw [lockSlot_of_ne he]
      exact ho.sound i hi
  · show ((d.kernel.lockSlot adminMutex unlocked t).mutexes adminMutex).value = unlocked
    rw [lockSlot_self]

theorem semaphores (h : Unlocks d s) : s.kernel.semaphores = d.kernel.semaphores := by
  obtain ⟨t,hs⟩ := h
  rw [hs]
  rfl

theorem shut_iff (h : Unlocks d s) (hs : Served d semaphore) : s.Shut semaphore ↔ d.Shut semaphore := by
  unfold Shut isValidSemaphore isValidMutex
  rw [h.semaphores]
  by_cases hv : d.kernel.isValidSemaphore semaphore
  · have hne : (d.kernel.semaphores semaphore).mutex ≠ adminMutex := by
      intro he
      apply (hs hv).1
      rw [he]
      decide
    rw [h.slot hne]
  · exact ⟨fun hx => absurd hx.1 hv,fun hx => absurd hx.1 hv⟩

end Unlocks

/-- `channelMutex` is held by `t`, and the other locks of the kernel are open. -/
structure HoldsChannel (t : ThreadId) (s : Registry) : Prop where
  guarded : s.kernel.Guarded
  semaphoreMutex : s.semaphoreMutex = 1
  buddyMutex : s.buddyMutex = adminMutex
  channelMutex : s.channelMutex = 2
  admin : (s.kernel.mutexes adminMutex).value = unlocked
  semaphores : (s.kernel.mutexes 1).value = unlocked
  holder : (s.kernel.mutexes 2).lockProcess = t
  pop : (s.kernel.mutexes 2).list.pop = none

namespace HoldsChannel

theorem balances {a : α} (h : HoldsChannel t s) :
    Balances (mutexUp 2 t >>= fun _ => pure a) s := by
  have hup := mutexUp_held h.guarded (m := 2) (by decide) le_rfl h.holder h.pop
  refine ⟨a,_,bind_of_ok (a := ()) (mutexUp_ok.mpr ⟨_,hup,rfl⟩),fun m hm => ?_⟩
  have hrange : m = 0 ∨ m = 1 ∨ m = 2 := by
    unfold KernelLock at hm
    simp only [h.semaphoreMutex,h.buddyMutex,h.channelMutex,adminMutex] at hm
    omega
  show ((s.kernel.lockSlot 2 unlocked t).mutexes m).value = unlocked
  rcases hrange with rfl | rfl | rfl
  · rw [lockSlot_of_ne (by decide)]
    exact h.admin
  · rw [lockSlot_of_ne (by decide)]
    exact h.semaphores
  · rw [lockSlot_self]

theorem registers (h : HoldsChannel t s) (hr : Registers pid s s') : HoldsChannel t s' := by
  have hlow : ∀ m, 0 ≤ m → m ≤ 2 → s'.kernel.mutexes m = s.kernel.mutexes m :=
    fun _ => hr.low h.guarded
  refine ⟨hr.guarded h.guarded,hr.semaphoreMutex.trans h.semaphoreMutex,
    hr.buddyMutex.trans h.buddyMutex,hr.channelMutex.trans h.channelMutex,?_,?_,?_,?_⟩
  · rw [hlow _ (by decide) (by decide)]
    exact h.admin
  · rw [hlow _ (by decide) (by decide)]
    exact h.semaphores
  · rw [hlow _ (by decide) (by decide)]
    exact h.holder
  · rw [hlow _ (by decide) (by decide)]
    exact h.pop

theorem sets (h : HoldsChannel t s) (hr : Sets s s') : HoldsChannel t s' := by
  refine ⟨hr.guarded,hr.semaphoreMutex.trans h.semaphoreMutex,
    hr.buddyMutex.trans h.buddyMutex,hr.channelMutex.trans h.channelMutex,?_,?_,?_,?_⟩
  · rw [hr.low _ (by decide) (by decide)]
    exact h.admin
  · rw [hr.low _ (by decide) (by decide)]
    exact h.semaphores
  · rw [hr.low _ (by decide) (by decide)]
    exact h.holder
  · rw [hr.low _ (by decide) (by decide)]
    exact h.pop

theorem unlocks (h : HoldsChannel t d) (hl : Unlocks d s) : HoldsChannel t s := by
  obtain ⟨u,hs⟩ := hl
  rw [hs]
  refine ⟨h.guarded.lockSlot,h.semaphoreMutex,h.buddyMutex,h.channelMutex,?_,?_,?_,?_⟩
  · show ((d.kernel.lockSlot adminMutex unlocked u).mutexes adminMutex).value = unlocked
    rw [lockSlot_self]
  · exact (congrArg Mutex.value (lockSlot_of_ne (by decide : 1 ≠ adminMutex))).trans h.semaphores
  · exact (congrArg Mutex.lockProcess (lockSlot_of_ne (by decide : 2 ≠ adminMutex))).trans h.holder
  · exact (congrArg (fun m => m.list.pop) (lockSlot_of_ne (by decide : 2 ≠ adminMutex))).trans h.pop

end HoldsChannel

theorem Served.getD {r : Option ℤ} (h : ∀ i, r = some i → Settled pid s i) :
    Served s (r.getD semCreationError) := by
  cases r with
  | none => exact fun hv => absurd hv.1 (by decide)
  | some i => exact (h i rfl).served

variable {senderPid recipientPid : ℤ} {address : ℕ}

/-- What `createChannel` needs of the tables: vacant names, each at its turn, and send
semaphores that it can set. -/
def ChannelRoom (senderPid recipientPid : ℤ) (s : Registry) : Prop :=
  let senderSend := generateChannelMutexName senderPid recipientPid true
  let recipientSend := generateChannelMutexName recipientPid senderPid true
  let senderReceive := generateChannelMutexName senderPid recipientPid false
  let recipientReceive := generateChannelMutexName recipientPid senderPid false
  let x₁ := registerSemaphore senderPid senderSend 0 s
  let x₂ := registerSemaphore senderPid recipientSend 0 x₁.2
  let x₃ := registerSemaphore senderPid senderReceive 0 x₂.2
  let x₄ := registerSemaphore senderPid recipientReceive 0 x₃.2
  s.Vacant senderSend ∧ x₁.2.Vacant recipientSend ∧ x₂.2.Vacant senderReceive ∧
    x₃.2.Vacant recipientReceive ∧ ¬ x₄.2.Shut (x₁.1.getD semCreationError) ∧
    ¬ x₄.2.Shut (x₂.1.getD semCreationError)

theorem linkChannel_balances {f : Unit → KernelCall α} {i j l n : ℤ} (ho : s.Orderly)
    (hi : Served s i) (hj : Served s j) (hf : ∀ s', HoldsChannel t s' → Balances (f ()) s')
    (hh : HoldsChannel t s) :
    Balances (linkChannel senderPid recipientPid address i j l n >>= f) s ↔
      ¬ s.Shut i ∧ ¬ s.Shut j := by
  unfold linkChannel
  simp only [bind_assoc]
  obtain ⟨s₁,h₁,hx⟩ : ∃ s₁, Sets s s₁ ∧ _ := setValue_balances ho.guarded ho.sound hi
  rw [hx]
  obtain ⟨s₂,h₂,hy⟩ : ∃ s₂, Sets s₁ s₂ ∧ _ := setValue_balances h₁.guarded h₁.sound (h₁.served hj)
  rw [hy,h₁.shut_iff hj]
  have hlast : Balances (modify (addChannelToList ⟨senderPid,recipientPid,i,j,l,n,[],address⟩) >>= f)
      s₂ := by
    have hset := (hh.sets h₁).sets h₂
    exact hf (addChannelToList _ s₂) ⟨hset.1,hset.2,hset.3,hset.4,hset.5,hset.6,hset.7,hset.8⟩
  simp [hlast]

theorem linkChannel_leaked {i j l n : ℤ} :
    StaysLeaked (linkChannel senderPid recipientPid address i j l n) :=
  setValue_leaked.bind (fun _ => setValue_leaked.bind (fun _ => addChannelToList_leaked))

theorem fillChannel_balances (ho : d.Orderly) (hh : HoldsChannel t d) (hl : Unlocks d s)
    {f : Unit → KernelCall α} (hf : ∀ s', HoldsChannel t s' → Balances (f ()) s')
    (hleak : StaysLeaked (f ())) :
    Balances (fillChannel senderPid recipientPid address >>= f) s ↔
      ChannelRoom senderPid recipientPid d := by
  have hlink : ∀ i j l n, StaysLeaked (linkChannel senderPid recipientPid address i j l n >>= f) :=
    fun i j l n => linkChannel_leaked.bind (fun _ => hleak)
  unfold fillChannel
  simp only [bind_assoc]
  -- the four creations, each with what still follows
  obtain ⟨s₁,hr₁,hl₁,h₁⟩ : ∃ s₁, Registers senderPid _ _ ∧ _ := createSemaphore_balances ho hl
    (fun _ => createSemaphore_leaked.bind (fun _ => createSemaphore_leaked.bind
      (fun _ => createSemaphore_leaked.bind (fun _ => hlink _ _ _ _))))
  rw [h₁]
  have ho₁ := hr₁.orderly ho
  obtain ⟨s₂,hr₂,hl₂,h₂⟩ : ∃ s₂, Registers senderPid _ _ ∧ _ := createSemaphore_balances ho₁ hl₁
    (fun _ => createSemaphore_leaked.bind (fun _ => createSemaphore_leaked.bind
      (fun _ => hlink _ _ _ _)))
  rw [h₂]
  have ho₂ := hr₂.orderly ho₁
  obtain ⟨s₃,hr₃,hl₃,h₃⟩ : ∃ s₃, Registers senderPid _ _ ∧ _ := createSemaphore_balances ho₂ hl₂
    (fun _ => createSemaphore_leaked.bind (fun _ => hlink _ _ _ _))
  rw [h₃]
  have ho₃ := hr₃.orderly ho₂
  obtain ⟨s₄,hr₄,hl₄,h₄⟩ : ∃ s₄, Registers senderPid _ _ ∧ _ := createSemaphore_balances ho₃ hl₃
    (fun _ => hlink _ _ _ _)
  rw [h₄]
  have ho₄ := hr₄.orderly ho₃
  -- the two semaphores that get a value
  have hserved₁ : Served (registerSemaphore senderPid
      (generateChannelMutexName recipientPid senderPid false) 0 _).2 _ := Served.getD (fun i hi =>
    (((registerSemaphore_settled ho.guarded hi).register ho₁.guarded).register ho₂.guarded).register
      ho₃.guarded)
  have hserved₂ : Served (registerSemaphore senderPid
      (generateChannelMutexName recipientPid senderPid false) 0 _).2 _ := Served.getD (fun i hi =>
    ((registerSemaphore_settled ho₁.guarded hi).register ho₂.guarded).register ho₃.guarded)
  have hheld := (((hh.registers hr₁).registers hr₂).registers hr₃).registers hr₄
  rw [linkChannel_balances (hl₄.orderly ho₄) (hl₄.served hserved₁) (hl₄.served hserved₂) hf
    (hheld.unlocks hl₄),hl₄.shut_iff hserved₁,hl₄.shut_iff hserved₂]
  exact Iff.rfl

def NoPage (s : Registry) : Prop :=
  ∃ h, BuddyAllocator.getPages 1 s.heap = some (BuddyAllocator.null,h)

/-- A page is asked for under the lock of the heap, which is open again afterwards. -/
theorem allocatePage_holds (h : HoldsChannel t s) (hh : BuddyAllocator.HeapOk s.heap)
    (hp : (s.kernel.mutexes adminMutex).list.pop = none) :
    ∃ a heap, BuddyAllocator.getPages 1 s.heap = some (a,heap) ∧
      allocateMemory channelNodeSize s = .ok (a,{ s with
        kernel := s.kernel.lockSlot adminMutex unlocked s.kernel.caller
        heap := heap }) := by
  obtain ⟨heap,he,-,-⟩ := BuddyAllocator.allocatePages_spec hh le_rfl (by decide)
  refine ⟨_,heap,he,?_⟩
  have hdown := h.guarded.mutexDown (m := adminMutex) (t := s.kernel.caller) (by decide) (by decide)
    (by rw [h.admin]; decide)
  have hup := mutexUp_held (k := s.kernel.lockSlot adminMutex locked s.kernel.caller)
    (m := adminMutex) (t := s.kernel.caller) h.guarded.lockSlot (by decide) (by decide)
    (by rw [lockSlot_self]) (by rw [lockSlot_list]; exact hp)
  rw [lockSlot_lockSlot] at hup
  have hone : allocateMemory channelNodeSize = allocatePages 1 := rfl
  rw [hone]
  unfold allocatePages
  rw [if_neg (by decide),get_bind,
    bind_of_ok (a := ()) (mutexDown_ok.mpr
      ⟨_,(congrArg (fun m => s.kernel.mutexDown m _) h.buddyMutex).trans hdown,rfl⟩),
    bind_of_ok (partly_ok.mpr (by rw [show BuddyAllocator.getPages 1 _ = _ from he]; rfl)),
    bind_of_ok (a := ()) (mutexUp_ok.mpr
      ⟨_,(congrArg (fun m => Kernel.mutexUp _ m _) h.buddyMutex).trans hup,rfl⟩)]
  rfl

/-- `createChannel` behind the search gives its lock back, or gets stuck or loses `adminMutex`
on the way. -/
theorem newChannel_balances (ho : s.Orderly) (h : HoldsChannel t s)
    (hh : BuddyAllocator.HeapOk s.heap) :
    Balances (newChannel senderPid recipientPid t) s ↔
      s.NoPage ∨ ChannelRoom senderPid recipientPid s := by
  obtain ⟨a,heap,hpages,hcall⟩ : ∃ a heap, _ ∧ allocateMemory channelNodeSize s = .ok (a,_) :=
    allocatePage_holds h hh ho.admin_pop
  have hl : Unlocks s { s with
    kernel := s.kernel.lockSlot adminMutex unlocked s.kernel.caller
    heap := heap } := ⟨_,rfl⟩
  have hpage : s.NoPage ↔ a = BuddyAllocator.null := by
    unfold NoPage
    rw [hpages]
    simp
  have hlast : ∀ s', HoldsChannel t s' → Balances (mutexUp s.channelMutex t >>= fun _ => pure a) s' := by
    intro s' hx
    rw [h.channelMutex]
    exact hx.balances
  rw [hpage]
  unfold newChannel Balances
  rw [get_bind,bind_of_ok hcall]
  by_cases ha : a = BuddyAllocator.null
  · rw [if_pos ha]
    simp only [ha,true_or,iff_true]
    rw [← ha]
    exact hlast _ (h.unlocks hl)
  · rw [if_neg ha]
    simp only [ha,false_or]
    refine fillChannel_balances ho h hl hlast (.bind ?_ (fun _ => .pure (fun _ h => h)))
    rw [h.channelMutex]
    exact mutexUp_leaked (by decide)

def enterChannel (senderPid : ℤ) (s : Registry) : Registry :=
  { s with kernel := s.kernel.take s.channelMutex ⟨senderPid,s.kernel.getCurrentThread⟩ }

theorem enterChannel_self (h : s.Sane) : (enterChannel senderPid s).kernel.mutexes 2 =
    { s.kernel.mutexes 2 with
      value := locked
      lockProcess := ⟨senderPid,s.kernel.getCurrentThread⟩ } := by
  unfold enterChannel
  rw [h.channelMutex]
  exact take_self

theorem enterChannel_holds (h : s.Sane) (hu : s.Unlocked) :
    (enterChannel senderPid s).Orderly ∧
      HoldsChannel ⟨senderPid,s.kernel.getCurrentThread⟩ (enterChannel senderPid s) := by
  have hlow := h.unlocked_iff.mp hu
  have hslot : ∀ m, m ≠ 2 → ((enterChannel senderPid s).kernel.mutexes m).list =
      (s.kernel.mutexes m).list ∧ ((enterChannel senderPid s).kernel.mutexes m).value =
      (s.kernel.mutexes m).value := by
    intro m hm
    have hne : m ≠ s.channelMutex := by
      rw [h.channelMutex]
      exact hm
    exact ⟨(marked_of_ne hne).1,(marked_of_ne hne).2.1⟩
  have hself : (enterChannel senderPid s).kernel.mutexes 2 = _ := enterChannel_self h
  have hadmin : ((enterChannel senderPid s).kernel.mutexes adminMutex).value = unlocked := by
    rw [(hslot _ (by decide)).2]
    exact hlow _ (by decide) (by decide)
  refine ⟨⟨h.guarded.take,fun i hi => ?_,hadmin⟩,h.guarded.take,h.semaphoreMutex,h.buddyMutex,
    h.channelMutex,hadmin,?_,?_,?_⟩
  · by_cases he : i = 2
    · subst he
      rw [hself]
      exact (h.sound 2 hi).taken (Or.inr (by rw [hlow 2 (by decide) le_rfl]; decide))
        (.free (by rw [hlow 2 (by decide) le_rfl]; decide))
    · exact (h.sound i hi).congr (hslot i he).1 (hslot i he).2
  · rw [(hslot 1 (by decide)).2]
    exact hlow 1 (by decide) (by decide)
  · rw [hself]
  · rw [hself]
    exact h.pop (by decide) le_rfl (hlow 2 (by decide) le_rfl)

theorem createChannel_balances (h : s.Sane) (hu : s.Unlocked) :
    Balances (createChannel senderPid recipientPid) s ↔
      s.getChannelFromList senderPid recipientPid = none ∧
        (s.NoPage ∨ ChannelRoom senderPid recipientPid (enterChannel senderPid s)) := by
  obtain ⟨horder,hheld⟩ : (enterChannel senderPid s).Orderly ∧ _ := enterChannel_holds h hu
  have hopen := h.unlocked_iff.mp hu 2 (by decide) le_rfl
  have hdown : mutexDown s.channelMutex ⟨senderPid,s.kernel.getCurrentThread⟩ s =
      .ok ((),enterChannel senderPid s) := by
    apply mutexDown_free
    · rw [h.channelMutex]
      exact h.guarded.valid (by decide) le_rfl
    · rw [h.channelMutex,hopen]
      decide
  have hkept : ¬ (enterChannel senderPid s).Unlocked := by
    intro hx
    have hv := hx 2 (Or.inr (Or.inr (Or.inr h.channelMutex.symm)))
    rw [show (enterChannel senderPid s).kernel.mutexes 2 = _ from enterChannel_self h] at hv
    exact absurd hv (by decide : locked ≠ unlocked)
  have hfind : (enterChannel senderPid s).getChannelFromList senderPid recipientPid =
    s.getChannelFromList senderPid recipientPid := rfl
  unfold Balances createChannel
  rw [get_bind,bind_of_ok hdown,get_bind,hfind]
  cases hc : s.getChannelFromList senderPid recipientPid with
  | some node =>
    constructor
    · rintro ⟨a,s',hx,hy⟩
      cases hx
      exact absurd hy hkept
    · rintro ⟨hx,-⟩
      cases hx
  | none =>
    simp only [true_and]
    exact newChannel_balances horder hheld h.heap

/-- The calls give the locks of the kernel back exactly if they find nothing. -/
theorem lock_balance (h : s.Reachable) (hu : s.Unlocked) :
    (∀ name pid thread, Balances (getMutex name pid thread) s ↔ s.kernel.findMutex name = none) ∧
    (∀ name pid thread, Balances (getSemaphore name pid thread) s ↔
      s.kernel.findSemaphore name = none ∧ (s.HasRoom name → s.kernel.findMutex name = none)) ∧
    (∀ senderPid recipientPid, Balances (createChannel senderPid recipientPid) s ↔
      s.getChannelFromList senderPid recipientPid = none ∧
        (s.NoPage ∨ ChannelRoom senderPid recipientPid (enterChannel senderPid s))) :=
  ⟨fun _ _ _ => getMutex_balances h.sane hu,fun _ _ _ => getSemaphore_balances h.sane hu,
    fun _ _ => createChannel_balances h.sane hu⟩

/-- After the boot a new mutex is created and `adminMutex` is open again. -/
theorem lock_balance_boot : ∃ s, main static = .ok ((),s) ∧ Balances (getMutex [109] 1 0) s := by
  obtain ⟨s,hm,hb⟩ := main_booted
  refine ⟨s,hm,((lock_balance (Reachable.boot hm) hb.unlocked).1 _ _ _).mpr ?_⟩
  cases hi : s.kernel.findMutex [109] with
  | none => rfl
  | some i =>
    have hn := hb.filed.find (n := ⟨[109],by decide⟩).mp hi
    simp only [bootNames,List.mem_cons,List.not_mem_nil,or_false,Prod.mk.injEq] at hn
    rcases hn with ⟨-,hx⟩ | ⟨-,hx⟩ | ⟨-,hx⟩ <;> exact absurd hx (by decide)

/-- A process that asks for the mutex of the semaphores by its name is answered, and
`adminMutex` stays locked. -/
theorem lock_balance_fails : ¬ ∀ s : Registry, s.Reachable → s.Unlocked →
    ∀ name pid thread, Balances (getMutex name pid thread) s := by
  intro hall
  obtain ⟨s,hm,hb⟩ := main_booted
  have hr := Reachable.boot hm
  have hnone := (getMutex_balances hr.sane hb.unlocked).mp
    (hall s hr hb.unlocked semName 1 0)
  have hfound : s.kernel.findMutex semName = some 1 :=
    hb.filed.find (n := ⟨semName,by decide⟩).mpr (by simp [bootNames])
  rw [hfound] at hnone
  cases hnone

end Registry
end ComplexOS
