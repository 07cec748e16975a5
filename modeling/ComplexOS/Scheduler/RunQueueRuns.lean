import ComplexOS.Scheduler.RunQueue

/-! # Runs of the run queue

Processes are added and removed, and in between the processor is switched and the
records in the slots are changed by everything else the kernel does.
-/
namespace ComplexOS
open SlotChains

inductive SchedulerStep
  | addProcess (p : ProcessRecord)
  | removeProcess (p : Option ProcessRecord)
  | nextProcess
  | update (i : ℤ) (p : ProcessRecord)

namespace Scheduler
variable (s : Scheduler)

/-- There is no switch before there is a process. -/
def step : SchedulerStep → Option Scheduler
  | .addProcess p => some (s.addProcess p).1
  | .removeProcess p => s.removeProcess p
  | .nextProcess => if s.processQuantity = 0 then none else s.nextProcess
  | .update i p => if s.Live i then some (s.setProcess i (some p)) else none

def Calm (s : Scheduler) : SchedulerStep → Prop
  | .removeProcess (some q) => s.processQuantity = maxProcesses → s.Absent q.pid
  | _ => True

variable {s} {s' : Scheduler} {slots : List ℤ} {r pid : ℤ}

theorem initializeScheduler_ok : initializeScheduler.Ok := by
  have hq : initializeScheduler.Queued [] := by
    refine ⟨fun i => ?_,trivial,rfl⟩
    simp [Live,process?,initializeScheduler]
  refine ⟨hq.runQueue (fun _ => ⟨⟨le_refl 0,by decide⟩,?_⟩),fun h => absurd h (by decide),rfl⟩
  simp [Live,process?,initializeScheduler]

theorem Ok.same (h : s.Ok) (hq : ∃ slots, s'.Queued slots) {c : ℤ}
    (hs : SameQueue { s with current := c } s') : s'.Ok := by
  obtain ⟨slots,hq⟩ := hq
  have hquantity : s'.processQuantity = s.processQuantity := hs.quantity
  have hspace : s'.firstAvailableSpace = s.firstAvailableSpace := hs.space
  refine ⟨hq.runQueue (fun hlt => ?_),fun hf => ?_,hs.changeLock.trans h.unlocked⟩
  · rw [hquantity] at hlt
    obtain ⟨ht,hf⟩ := h.queue.space hlt
    rw [hspace]
    exact ⟨ht,fun hl => hf ((hs.live _).mp hl)⟩
  · rw [hquantity] at hf
    rw [hspace]
    exact h.full hf

theorem Ok.nextProcess (h : s.Ok) (h0 : s.processQuantity ≠ 0) (hn : s.nextProcess = some s') :
    s'.Ok := by
  obtain ⟨slots,hs⟩ := h.queue.queued
  have hmem := hs.current_mem h0
  cases slots with
  | nil => cases hmem
  | cons c rest =>
    obtain ⟨hq,hsame⟩ := hs.linked.nextProcess h.unlocked (hs.linked.next_mem hmem) hn
    exact h.same hq hsame

theorem Ok.update {i : ℤ} {p : ProcessRecord} (h : s.Ok) (hi : s.Live i) :
    (s.setProcess i (some p)).Ok := by
  have hsame := SameQueue.setProcess (p := p) hi
  obtain ⟨slots,hs⟩ := h.queue.queued
  refine h.same ⟨slots,fun i => ?_,?_,?_⟩ hsame
  · rw [hsame.live]
    exact hs.live i
  · cases slots with
    | nil => trivial
    | cons c rest => exact ⟨hs.cycle.1,hsame.link ▸ hs.cycle.2⟩
  · exact hs.quantity

theorem Removed.ok (hr : Removed s pid s' r) (h : s.Ok) (hq : s.processQuantity ≠ maxProcesses) :
    s'.Ok := by
  obtain ⟨slots,hs⟩ := h.queue.queued
  obtain ⟨slots',hs'⟩ := hr.queued
  have hle := hs.quantity_le
  have hquantity := hr.quantity
  obtain ⟨ht,hf⟩ := h.queue.space (lt_of_le_of_ne hle hq)
  refine ⟨hs'.runQueue (fun _ => ?_),fun he => by omega,hr.changeLock.trans h.unlocked⟩
  rcases hr.space with hx | ⟨-,hx⟩
  · rw [hx]
    exact ⟨ht,fun hl => hf ((hr.live _).mp hl).1⟩
  · rw [hx]
    exact ⟨hr.table,fun hl => ((hr.live _).mp hl).2 rfl⟩

/-- The sentinel of a full table survives the removal. -/
theorem Removed.stuck (hr : Removed s pid s' r) (h : s.Ok) (hq : s.processQuantity = maxProcesses) :
    s'.firstAvailableSpace = -1 := by
  have hf := h.full hq
  rcases hr.space with hx | ⟨hgt,-⟩
  · exact hx.trans hf
  · have := hr.table.1
    omega

theorem Removed.broken (hr : Removed s pid s' r) (h : s.Ok)
    (hq : s.processQuantity = maxProcesses) : ¬ s'.RunQueue := by
  intro hs'
  have hquantity := hr.quantity
  have hm := (hs'.space (by omega)).1.1
  rw [hr.stuck h hq] at hm
  exact absurd hm (by decide)

theorem step_ok {l : SchedulerStep} (h : s.Ok) (hc : s.Calm l) (hn : s.step l = some s') :
    s'.Ok := by
  cases l with
  | addProcess p =>
    cases hn
    exact h.addProcess
  | removeProcess q =>
    obtain ⟨slots,hs⟩ := h.queue.queued
    cases q with
    | none =>
      cases hn
      exact h
    | some q =>
      rcases removeProcess_cases hs h.unlocked hn with ⟨rfl,-⟩ | ⟨r,hr⟩
      · exact h
      · refine hr.ok h (fun hq => ?_)
        obtain ⟨p,hp,hpid⟩ := hr.found
        exact hc hq r p hr.table hp hpid
  | nextProcess =>
    obtain ⟨h0,hn⟩ := Option.ite_none_left_eq_some.mp hn
    exact h.nextProcess h0 hn
  | update i p =>
    obtain ⟨hi,hn⟩ := Option.ite_none_right_eq_some.mp hn
    cases hn
    exact h.update hi

theorem step_calm {l : SchedulerStep} (h : s.Ok) (hn : s.step l = some s') (hq : s'.RunQueue) :
    s.Calm l := by
  cases l with
  | removeProcess q =>
    obtain ⟨slots,hs⟩ := h.queue.queued
    cases q with
    | none => trivial
    | some q =>
      intro hfull
      rcases removeProcess_cases hs h.unlocked hn with ⟨-,ha⟩ | ⟨r,hr⟩
      · exact ha
      · exact absurd hq (hr.broken h hfull)
  | _ => trivial

/-- The invariant holds throughout a run exactly when no process is taken out of a full
table in it. -/
theorem run_queue_law {ls : List SchedulerStep}
    (h : Runs.run step initializeScheduler ls = some s) :
    Runs.Always step RunQueue initializeScheduler ls ↔
      Runs.Along step Calm initializeScheduler ls :=
  Runs.always_iff_along (fun _ => Ok.queue) (fun _ _ _ => step_ok) (fun _ _ _ => step_calm)
    initializeScheduler_ok h

def sample (pid : ℤ) : ProcessRecord where
  pid := pid
  ppid := 0
  currentThread := 0
  threads := fun i => ⟨0,if i = 0 then some ⟨.ready,notWaiting,0⟩ else none⟩
  address := 0

theorem run_queue_law_three : Runs.Always step RunQueue initializeScheduler
    [.addProcess (sample 1),.addProcess (sample 2),.removeProcess (some (sample 1))] := by
  refine (run_queue_law (s := ?_) ?_).mpr ?_
  rotate_left
  · exact rfl
  · refine ⟨trivial,fun t ht => ?_⟩
    cases ht
    refine ⟨trivial,fun t ht => ?_⟩
    cases ht
    exact ⟨fun hq => absurd hq (by decide),fun _ _ => trivial⟩

def fill (n : ℕ) : List SchedulerStep := (List.range n).map (fun i : ℕ => .addProcess (sample i))

/-- Into a queue that is not empty, a process goes right behind the current one. -/
theorem Ok.addProcess_front {p : ProcessRecord} (h : s.Ok) (h0 : s.processQuantity ≠ 0)
    (hq : s.processQuantity < maxProcesses) :
    (s.addProcess p).1.process? ((s.addProcess p).1.link (s.addProcess p).1.current) = some p := by
  obtain ⟨slots,hs⟩ := h.queue.queued
  have hlive := ((hs.live _).mp (hs.current_mem h0)).2
  have hne : s.current ≠ s.firstAvailableSpace := fun he => (h.queue.space hq).2 (he ▸ hlive)
  have hplaced := addProcess_placed p h0 hq.ne
  rw [(hplaced.next hne).1,hplaced.process,if_pos rfl]

theorem fill_run {n : ℕ} (hn : n ≤ maxProcesses) :
    ∃ s, Runs.run step initializeScheduler (fill n) = some s ∧ s.Ok ∧ s.processQuantity = n ∧
      (2 ≤ n → s.process? (s.link s.current) = some (sample (n-1))) := by
  induction n with
  | zero => exact ⟨_,rfl,initializeScheduler_ok,rfl,fun h => absurd h (by decide)⟩
  | succ n ih =>
    obtain ⟨s,hr,hok,hq,-⟩ := ih (Nat.le_of_succ_le hn)
    have hlt : s.processQuantity < maxProcesses := by omega
    refine ⟨(s.addProcess (sample n)).1,?_,hok.addProcess,?_,fun h2 => ?_⟩
    · rw [fill,List.range_succ,List.map_append]
      exact Runs.run_append.mpr ⟨s,hr,rfl⟩
    · rw [processQuantity_addProcess hlt.ne,hq]
      rfl
    · rw [hok.addProcess_front (by omega) hlt]
      simp

/-- A full table that gives up the process behind the current one keeps the sentinel. -/
theorem Ok.remove_full {q : ProcessRecord} (h : s.Ok) (hq : s.processQuantity = maxProcesses)
    (hf : s.process? (s.link s.current) = some q) :
    ∃ s', s.removeProcess (some q) = some s' ∧ ¬ s'.RunQueue := by
  obtain ⟨slots,hs⟩ := h.queue.queued
  have hne : s.current ≠ s.link s.current := by
    intro he
    cases slots with
    | nil => exact absurd (hs.quantity.symm.trans hq) (by decide)
    | cons c rest =>
      obtain ⟨rfl,hr⟩ := hs.cycle
      rw [hr.alone he.symm] at hs
      exact absurd (hs.quantity.symm.trans hq) (by simp [maxProcesses])
  have hfound : s.findRemoved q.pid (s.link s.current) maxProcesses s.current (s.link s.current) =
      some (some (s.current,s.link s.current)) := by
    rw [maxProcesses,findRemoved,hf]
    simp
  have hrun : s.removeProcess (some q) = some (s.unlink s.current (s.link s.current)) := by
    rw [Scheduler.removeProcess,if_neg (by rw [hq]; decide),if_neg (fun he => hne he.1),hfound]
    simp [hne]
  refine ⟨_,hrun,fun hbad => ?_⟩
  have hfull := step_calm (l := .removeProcess (some q)) h hrun hbad hq
  have hmem : InTable (s.link s.current) := by
    cases slots with
    | nil => exact absurd (hs.quantity.symm.trans hq) (by decide)
    | cons c rest =>
      exact ((hs.live _).mp (hs.linked.next_mem (hs.current_mem (by rw [hq]; decide)))).1
  exact hfull _ q hmem hf rfl

/-- One hundred processes are added and one is removed. -/
theorem run_queue_fails : ¬ Runs.Always step RunQueue initializeScheduler
    (fill maxProcesses++[.removeProcess (some (sample 99))]) := by
  obtain ⟨s,hr,hok,hq,hf⟩ := fill_run (le_refl maxProcesses)
  obtain ⟨s',hs',hbad⟩ := hok.remove_full hq (hf (by decide))
  refine fun h => hbad (h _ s' (List.prefix_refl _) (Runs.run_append.mpr ⟨s,hr,?_⟩))
  exact Runs.run_cons.mpr ⟨s',hs',rfl⟩

end Scheduler
end ComplexOS
