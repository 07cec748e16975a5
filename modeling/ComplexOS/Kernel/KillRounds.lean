import ComplexOS.Kernel.KillBrackets

/-! # The sweep over the mutexes

In the name of the victim, which may have come to wait for `adminMutex` by then, every slot is
released where the victim has created it, handed on where the victim holds it, and cleared of
the victim's entries. What holds of `adminMutex` is carried from slot to slot.
-/
namespace ComplexOS
open Kernel Call

theorem Mutex.GaveUp.creator {m m' : Mutex} {pid : ℤ} (h : m.GaveUp pid m') :
    m'.creator = m.creator := by
  unfold GaveUp at h
  split at h
  · cases h <;> rfl
  · rw [h]

/-- Nobody else's mutex is given up. -/
theorem Mutex.GaveUp.shutFor {m m' : Mutex} {pid : ℤ} {x : ThreadId} (h : m.GaveUp pid m') (hok : m.Ok)
    (hx : x.pid ≠ pid) (hs : m.ShutFor x) : m'.ShutFor x := by
  unfold GaveUp at h
  split at h
  · rename_i hc
    refine hs.givenUp hok (fun he => hx ?_) h
    rw [← he,hc.2]
  · rwa [h]

namespace Registry
variable {s s' s₁ s₂ : Registry} {m i pid thread : ℤ} {t : ThreadId} {v : Victim} {u : Unit}
  {P Q : Mutex → Prop} {b : Bool} {j : ℕ} {k : Kernel} {hne : t.pid ≠ notUsed}

/-! ### Rounds of the sweep over the mutexes -/

theorem Releases.refl (hc : (s.kernel.mutexes m).creator ≠ t) : Releases t m s s :=
  ⟨Passes.refl,fun _ _ _ => rfl,rfl,fun _ _ => rfl,fun _ hx => absurd hx hc⟩

theorem releaseOwnedMutex_releases (hP : Survives t P) (hs : Cleaning P s) (ht : 0 < t.pid)
    (h : Kills.releaseOwnedMutex mutexDownFor ⟨t.pid,none,hne⟩ t i s = .ok (u,s')) :
    Cleaning P s' ∧ Releases t i s s' := by
  unfold Kills.releaseOwnedMutex at h
  rw [get_bind] at h
  split at h
  · obtain ⟨b,s₁,hr,h⟩ := bind_ok.mp h
    cases h
    exact releaseMutex_releases hP hs ht hr
  · rename_i hc
    cases h
    exact ⟨hs,Releases.refl (fun hx => hc (covers_pid.mpr (congrArg ThreadId.pid hx)))⟩

/-- The pid of the holder is passed on as its thread. -/
theorem upHeldMutex_writes (h : upHeldMutex ⟨pid,none,hpid⟩ i s = .ok (u,s')) : Writes i s s' ∧
    (InMutexes i → (s.kernel.mutexes i).GaveUp pid (s'.kernel.mutexes i)) := by
  unfold upHeldMutex at h
  rw [get_bind] at h
  unfold Mutex.GaveUp
  split at h
  · rename_i hc
    have hcover : (s.kernel.mutexes i).lockProcess.pid = pid := covers_pid.mp hc
    rw [hcover] at h
    obtain ⟨hw,⟨hx,hsame⟩ | ⟨hv,hl,hg⟩⟩ := mutexUp_writes h
    · refine ⟨hw,fun hi => ?_⟩
      rw [if_neg (fun hy => hx ⟨⟨hi.1,hi.2,hy.1⟩,hy.2⟩)]
      exact hsame
    · refine ⟨hw,fun _ => ?_⟩
      rw [if_pos ⟨hv.2.2,hl⟩]
      exact hg
  · rename_i hc
    cases h
    refine ⟨Writes.refl,fun _ => ?_⟩
    rw [if_neg (fun hy => hc (covers_pid.mpr (congrArg ThreadId.pid hy.2)))]

structure Cleans (t : ThreadId) (i : ℤ) (s s' : Registry) : Prop extends Passes s s' where
  mutexes : ∀ j, j ≠ adminMutex → j ≠ i → s'.kernel.mutexes j = s.kernel.mutexes j
  semaphores : s'.kernel.semaphores = s.kernel.semaphores
  slot : (s.kernel.mutexes i).Cleaned t (s'.kernel.mutexes i)

theorem sweepMutex_cleans {i : ℕ} (hP : Survives t P) (hs : Cleaning P s) (ht : 0 < t.pid)
    (hi : InMutexes i) (h0 : (i : ℤ) ≠ adminMutex)
    (h : Kills.sweepMutex mutexDownFor ⟨t.pid,none,hne⟩ t i s = .ok (u,s')) :
    Cleaning P s' ∧ Cleans t i s s' := by
  unfold Kills.sweepMutex at h
  obtain ⟨⟨⟩,s₁,howned,h⟩ := bind_ok.mp h
  obtain ⟨⟨⟩,s₂,hup,hrest⟩ := bind_ok.mp h
  obtain ⟨hs₁,hr⟩ := releaseOwnedMutex_releases hP hs ht howned
  obtain ⟨hw₂,hg⟩ := upHeldMutex_writes hup
  obtain ⟨hw₃,hself,hlist⟩ := removeBlocked_writes hi hrest
  have hg := hg hi
  simp only [covers_pid] at hlist
  have hcreator : (s'.kernel.mutexes i).creator = (s₂.kernel.mutexes i).creator := by rw [hself]
  have hvalue : (s'.kernel.mutexes i).value = (s₂.kernel.mutexes i).value := by rw [hself]
  have hholder : (s'.kernel.mutexes i).lockProcess = (s₂.kernel.mutexes i).lockProcess := by rw [hself]
  refine ⟨(hs₁.writes hw₂ h0).writes hw₃ h0,(hr.toPasses.trans hw₂.toPasses).trans hw₃.toPasses,
    fun j hj hji => ?_,?_,?_⟩
  · rw [hw₃.mutexes j hji,hw₂.mutexes j hji,hr.mutexes j hj hji]
  · rw [hw₃.semaphores,hw₂.semaphores,hr.semaphores]
  · by_cases hc : (s.kernel.mutexes i).creator = t
    · have hreleased := hr.released hi hc
      -- nobody has created the slot any more, so that it cannot be given up
      have hsame : s₂.kernel.mutexes i = s₁.kernel.mutexes i := by
        unfold Mutex.GaveUp at hg
        rwa [if_neg (fun hx => hx.1 hreleased.creator)] at hg
      rw [hsame] at hcreator hvalue hholder hlist
      refine .released hc ⟨?_,?_,?_,?_⟩
      · rw [hcreator,hreleased.creator]
      · rw [hvalue,hreleased.value]
      · rw [hlist,hreleased.waiters]
        rfl
      · rw [hholder,hreleased.lockProcess]
    · rw [hr.kept h0 (fun hx => hc hx.2)] at hg
      exact .swept hc hg (hcreator.trans hg.creator) hvalue hholder hlist

/-- The round at the slot of `adminMutex` itself: it is open or the victim's alone then, or shut for
another thread. -/
theorem sweepMutex_admin (ho : Ordered s) (ht : 0 < t.pid)
    (h : Kills.sweepMutex mutexDownFor ⟨t.pid,none,hne⟩ t 0 s = .ok (u,s')) :
    Writes adminMutex s s' ∧ (∀ w ∈ (s'.kernel.mutexes adminMutex).list.waiters, w.pid ≠ t.pid) ∧
      ∀ x : ThreadId, x.pid ≠ t.pid → (s.kernel.mutexes adminMutex).ShutFor x →
        (s'.kernel.mutexes adminMutex).ShutFor x := by
  unfold Kills.sweepMutex at h
  obtain ⟨⟨⟩,s₁,howned,h⟩ := bind_ok.mp h
  obtain ⟨⟨⟩,s₂,hup,hrest⟩ := bind_ok.mp h
  have hi : InMutexes adminMutex := by decide
  have howned : s₁ = s := by
    have hc : ¬ (⟨t.pid,none,hne⟩ : Victim).Covers (s.kernel.mutexes (0 : ℕ)).creator := by
      intro hc
      have hpid : (s.kernel.mutexes adminMutex).creator.pid = t.pid := covers_pid.mp hc
      rw [ho.guarded.creator adminMutex le_rfl (by decide)] at hpid
      exact ne_of_lt ht hpid
    unfold Kills.releaseOwnedMutex at howned
    rw [get_bind,if_neg hc] at howned
    cases howned
    rfl
  subst howned
  obtain ⟨hw₂,hg⟩ := upHeldMutex_writes hup
  obtain ⟨hw₃,hself,hlist⟩ := removeBlocked_writes hi hrest
  have hg : Mutex.GaveUp t.pid (s₁.kernel.mutexes adminMutex) (s₂.kernel.mutexes adminMutex) := hg hi
  have hself : s'.kernel.mutexes adminMutex = { s₂.kernel.mutexes adminMutex with
    list := (s'.kernel.mutexes adminMutex).list } := hself
  have hlist : (s'.kernel.mutexes adminMutex).list.waiters =
      (s₂.kernel.mutexes adminMutex).list.waiters.filter (fun w => w.pid ≠ t.pid) := by
    rw [show (s'.kernel.mutexes adminMutex).list.waiters = _ from hlist]
    simp only [covers_pid]
  refine ⟨Writes.trans hw₂ hw₃,fun w hw => ?_,fun x hx hshut => ?_⟩
  · rw [hlist] at hw
    simpa using (List.mem_filter.mp hw).2
  · obtain ⟨hv,hx'⟩ := hg.shutFor (ho.sound adminMutex hi) hx hshut
    refine ⟨by rw [hself]; exact hv,?_⟩
    rw [hlist]
    refine hx'.imp (fun hl => by rw [hself]; exact hl) (fun hmem => ?_)
    exact List.mem_filter.mpr ⟨hmem,by simpa using hx⟩

end Registry

/-- What may hold of `adminMutex` when the sweep has passed its slot. -/
inductive Gate (t : ThreadId) : (Mutex → Prop) → Prop
  | free : Gate t (fun m => m.HeldBy none)
  | held : Gate t (fun m => m.HeldBy (some t))
  | shut {x : ThreadId} (hx : x ≠ t) : Gate t (Mutex.ShutFor x)

namespace Gate
variable {t : ThreadId} {P : Mutex → Prop} {m m' : Mutex}

theorem survives (h : Gate t P) (ht : t.used) : Survives t P := by
  cases h with
  | free => exact survives_heldBy ht (Or.inl rfl)
  | held => exact survives_heldBy ht (Or.inr rfl)
  | shut hx => exact survives_shutFor ht hx

theorem of_ok (h : m.Ok) (ht : t ∉ m.list.waiters) : ∃ P, Gate t P ∧ P m := by
  obtain hp | hp | ⟨x,hx,hp⟩ := h.cases ht
  · exact ⟨_,free,hp⟩
  · exact ⟨_,held,hp⟩
  · exact ⟨_,shut hx,hp⟩

/-- The last `mutexUp` of the sweep. -/
theorem upped (h : Gate t P) (hok : m.Ok) (hp : P m) (hu : Upped t m m') :
    m'.HeldBy none ∨ ∃ x ≠ t, m'.ShutFor x := by
  cases h with
  | free =>
    obtain ⟨-,rfl⟩ | ⟨-,hg⟩ := hu
    · exact Or.inl hp
    · exact Or.inl (hp.givenUp hg)
  | held =>
    obtain ⟨hl,-⟩ | ⟨-,hg⟩ := hu
    · exact absurd hp.2.2 hl
    · exact Or.inl (hp.givenUp hg)
  | shut hx => exact Or.inr ⟨_,hx,hp.upped hok hx hu⟩

end Gate

namespace Registry
variable {s s' s₁ s₂ : Registry} {m i pid thread : ℤ} {t : ThreadId} {v : Victim} {u : Unit}
  {P Q : Mutex → Prop} {b : Bool} {j : ℕ} {k : Kernel} {hne : t.pid ≠ notUsed}

structure SweptTo (t : ThreadId) (s : Registry) (n : ℕ) (x : Registry) : Prop extends Passes s x where
  semaphores : x.kernel.semaphores = s.kernel.semaphores
  start : n = 0 → x = s
  gate : 0 < n → ∃ P, Gate t P ∧ P (x.kernel.mutexes adminMutex)
  shut : ∀ w : ThreadId, w.pid ≠ t.pid → (s.kernel.mutexes adminMutex).ShutFor w →
    (x.kernel.mutexes adminMutex).ShutFor w
  done : ∀ i : ℤ, 0 < i → i < n → (s.kernel.mutexes i).Cleaned t (x.kernel.mutexes i)
  rest : ∀ i : ℤ, n ≤ i → i ≠ adminMutex → x.kernel.mutexes i = s.kernel.mutexes i

theorem SweptTo.next {n : ℕ} (ho : Ordered s) (ht : 0 < t.pid) (hn : n < maxMutexes.toNat)
    (hx : SweptTo t s n s₁)
    (h : Kills.sweepMutex mutexDownFor ⟨t.pid,none,hne⟩ t n s₁ = .ok (u,s₂)) :
    SweptTo t s (n+1) s₂ := by
  have hadmin : adminMutex = 0 := rfl
  have hused : t.used := used_of_pos ht t.thread
  cases n with
  | zero =>
    obtain rfl := hx.start rfl
    obtain ⟨hwrites,hwaiters,hshut⟩ := sweepMutex_admin ho ht h
    have hok := hwrites.toPasses.sound ho.sound adminMutex (by decide)
    refine ⟨hwrites.toPasses,hwrites.semaphores,fun h0 => absurd h0 (Nat.succ_ne_zero 0),
      fun _ => Gate.of_ok hok (fun hw => hwaiters t hw rfl),hshut,fun i h0 h1 => ?_,
      fun i _ hi => hwrites.mutexes i hi⟩
    exact absurd h1 (by omega)
  | succ n =>
    obtain ⟨P,hP,hp⟩ := hx.gate (Nat.succ_pos n)
    have ho₁ := ho.passes hx.toPasses
    have hmax : maxMutexes.toNat = 128 := rfl
    have hi : InMutexes ((n+1 : ℕ) : ℤ) := ⟨by omega,by show ((n+1 : ℕ) : ℤ) < 128; omega⟩
    have h0 : ((n+1 : ℕ) : ℤ) ≠ adminMutex := by omega
    obtain ⟨hclean,hc⟩ := sweepMutex_cleans (hP.survives hused) ⟨ho₁,hp⟩ ht hi h0 h
    refine ⟨hx.toPasses.trans hc.toPasses,hc.semaphores.trans hx.semaphores,
      fun h0 => absurd h0 (Nat.succ_ne_zero _),fun _ => ⟨P,hP,hclean.gate⟩,fun w hw hshut => ?_,
      fun i hpos hlt => ?_,fun i hle hne => ?_⟩
    · have hne : w ≠ t := fun he => hw (congrArg ThreadId.pid he)
      exact (sweepMutex_cleans (survives_shutFor hused hne) ⟨ho₁,hx.shut w hw hshut⟩ ht hi h0 h).1.gate
    · by_cases hin : i = ((n+1 : ℕ) : ℤ)
      · subst hin
        rw [← hx.rest _ le_rfl h0]
        exact hc.slot
      · rw [hc.mutexes i (by omega) hin]
        exact hx.done i hpos (by omega)
    · rw [hc.mutexes i hne (by omega),hx.rest i (by omega) hne]

/-- What `removePidFromMutexes` leaves: `adminMutex` is open again, or shut for another thread. -/
structure MutexesCleaned (t : ThreadId) (s s' : Registry) : Prop extends Passes s s' where
  semaphores : s'.kernel.semaphores = s.kernel.semaphores
  gate : (s'.kernel.mutexes adminMutex).HeldBy none ∨
    ∃ x ≠ t, (s'.kernel.mutexes adminMutex).ShutFor x
  shut : ∀ w : ThreadId, w.pid ≠ t.pid → (s.kernel.mutexes adminMutex).ShutFor w →
    (s'.kernel.mutexes adminMutex).ShutFor w
  slots : ∀ i, InMutexes i → i ≠ adminMutex → (s.kernel.mutexes i).Cleaned t (s'.kernel.mutexes i)

theorem removeFromMutexes_cleans (ho : Ordered s) (ht : 0 < t.pid)
    (h : Kills.removeFromMutexes mutexDownFor ⟨t.pid,none,hne⟩ t s = .ok (u,s')) :
    MutexesCleaned t s s' := by
  have hused : t.used := used_of_pos ht t.thread
  unfold Kills.removeFromMutexes at h
  obtain ⟨⟨⟩,s₁,hdown,h⟩ := bind_ok.mp h
  obtain ⟨⟨⟩,s₂,hloop,hup⟩ := bind_ok.mp h
  obtain ⟨hw₁,o,-,htaken⟩ := mutexDownFor_writes ho.guarded le_rfl (by decide) hused hdown
  have ho₁ := ho.passes hw₁.toPasses
  have hswept : SweptTo t s₁ maxMutexes.toNat s₂ :=
    forM_range_ok (fun n hn x x' hx hstep => hx.next ho₁ ht hn hstep)
      ⟨Passes.refl,rfl,fun _ => rfl,fun h0 => absurd h0 (lt_irrefl 0),fun _ _ hs => hs,
        fun i h0 h1 => by exact absurd h1 (by omega),fun _ _ _ => rfl⟩ hloop
  have ho₂ := ho₁.passes hswept.toPasses
  have hok := ho₂.sound adminMutex (by decide)
  obtain ⟨P,hP,hp⟩ := hswept.gate (by decide)
  obtain ⟨hw₃,-⟩ := mutexUp_writes hup
  have hupped := mutexUp_upped (ho₂.guarded.valid le_rfl (by decide)) hup
  refine ⟨(hw₁.toPasses.trans hswept.toPasses).trans hw₃.toPasses,?_,hP.upped hok hp hupped,
    fun w hw hshut => ?_,fun i hi h0 => ?_⟩
  · rw [hw₃.semaphores,hswept.semaphores,hw₁.semaphores]
  · have hne : w ≠ t := fun he => hw (congrArg ThreadId.pid he)
    exact (hswept.shut w hw (hshut.taken hused htaken)).upped hok hne hupped
  · have hpos : 0 < i := lt_of_le_of_ne hi.1 (Ne.symm h0)
    rw [hw₃.mutexes i h0,← hw₁.mutexes i h0]
    exact hswept.done i hpos hi.2

end Registry

end ComplexOS
