import ComplexOS.Scheduler.BoundedWaiting

/-! # Processes that come and go

A process that creates another one and is ended by it, again and again, keeps the processor from
a third one for ever, with a table that is all but empty.
-/
namespace ComplexOS
open SlotChains Runs

namespace Scheduler
open ProcessRecord
variable {s : Scheduler} {p : ProcessRecord}

/-- The current process creates another, which is switched to and ends its creator. -/
def turnover (pid : ℤ) : List DispatchStep := [.queue (.addProcess (sample (pid+1))),
  .queue .nextProcess,.queue (.removeProcess (some (sample pid)))]

structure Pair (s : Scheduler) (pid : ℤ) : Prop where
  ok : s.Ok
  ring : Ring s.link s.current [1]
  quantity : s.processQuantity = 2
  current : ∃ p, s.process? s.current = some p ∧ p.pid = pid ∧ (p.threadState p.currentThread).isSome
  waiting : s.process? 1 = some (sample 0)

theorem nextProcess_front {f pid : ℤ} (hl : s.changeLock = 0) (hf : s.link s.current = f)
    (hfc : f ≠ s.current) (hp : s.process? s.current = some p)
    (hst : (p.threadState p.currentThread).isSome) (hs : s.process? f = some (sample pid)) :
    ∃ s', s.nextProcess = some s' ∧ s'.current = f ∧ s'.link = s.link ∧
      s'.processQuantity = s.processQuantity ∧ (∀ k, k ≠ s.current → k ≠ f → s'.process? k = s.process? k) ∧
      (∃ q, s'.process? s.current = some q ∧ q.pid = p.pid) ∧
      ∃ q, s'.process? f = some q ∧ q.pid = pid ∧ (q.threadState q.currentThread).isSome := by
  obtain ⟨st,hst⟩ := Option.isSome_iff_exists.mp hst
  obtain ⟨d,hd,hlink,hcur,hquantity,hother,hself⟩ : ∃ d, s.demoteCurrent = some d ∧ d.link = s.link ∧
      d.current = s.current ∧ d.processQuantity = s.processQuantity ∧
        (∀ k, k ≠ s.current → d.process? k = s.process? k) ∧
          ∃ q, d.process? s.current = some q ∧ q.pid = p.pid := by
    rw [demoteCurrent,hp]
    simp only [hst,Option.map_some]
    split
    · refine ⟨_,rfl,link_setProcess,rfl,rfl,fun k hk => ?_,
        p.setThreadState p.currentThread .ready,?_,rfl⟩
      · rw [process?_setProcess,if_neg hk]
      · rw [process?_setProcess,if_pos rfl]
    · exact ⟨s,rfl,rfl,rfl,rfl,fun _ _ => rfl,p,hp,rfl⟩
  have hdf : d.process? f = some (sample pid) := (hother f hfc).trans hs
  have hnext : (sample pid).nextThread = some (0,sample pid) := rfl
  have hfind : findProcess d.current maxProcesses d.current d =
      some (f,d.setProcess f (some (sample pid))) := by
    obtain ⟨m,hm⟩ : ∃ m, maxProcesses = m+1 := ⟨99,rfl⟩
    rw [hm,findProcess,hlink,hcur,hf,hdf]
    simp [hnext]
  refine ⟨{ (d.setProcess f (some (sample pid))).setProcess f
      (some ((sample pid).setThreadState 0 .running)) with
        current := f, quantum := fullQuantum },?_,rfl,?_,hquantity,fun k hk hkf => ?_,?_,?_⟩
  · rw [Scheduler.nextProcess,if_neg (by rw [hl]; decide),hd]
    simp only [Option.bind_eq_bind,Option.bind_some,hfind]
    rw [process?_setProcess,if_pos rfl]
    rfl
  · show ((d.setProcess f _).setProcess f _).link = s.link
    rw [link_setProcess,link_setProcess,hlink]
  · show ((d.setProcess f _).setProcess f _).process? k = _
    rw [process?_setProcess,if_neg hkf,process?_setProcess,if_neg hkf,hother k hk]
  · obtain ⟨q,hq,hpid⟩ := hself
    refine ⟨q,?_,hpid⟩
    show ((d.setProcess f _).setProcess f _).process? s.current = _
    rw [process?_setProcess,if_neg hfc.symm,process?_setProcess,if_neg hfc.symm,hq]
  · refine ⟨(sample pid).setThreadState 0 .running,?_,rfl,rfl⟩
    show ((d.setProcess f _).setProcess f _).process? f = _
    rw [process?_setProcess,if_pos rfl]

theorem Pair.turnover {pid : ℤ} (h : s.Pair pid) (hpid : 0 < pid) : ∃ s₁ s₂ s',
    s.dispatch (.queue (.addProcess (sample (pid+1)))) = some s₁ ∧
    s₁.dispatch (.queue .nextProcess) = some s₂ ∧
    s₂.dispatch (.queue (.removeProcess (some (sample pid)))) = some s' ∧
    s₁.threadState 1 0 = some .ready ∧ s₂.threadState 1 0 = some .ready ∧
    s₂.processQuantity = 3 ∧ s'.Pair (pid+1) ∧
      s₂.switches (.queue (.removeProcess (some (sample pid)))) = 0 := by
  obtain ⟨p,hp,hppid,hst⟩ := h.current
  have hmax : s.processQuantity ≠ maxProcesses := by
    rw [h.quantity]
    decide
  have hin := h.ok.entered (p := sample (pid+1)) (by rw [h.quantity]; decide) hmax
  generalize hf : s.firstAvailableSpace = f at hin
  generalize hs₁ : (s.addProcess (sample (pid+1))).1 = s₁ at hin
  have hok₁ : s₁.Ok := by
    rw [← hs₁]
    exact h.ok.addProcess
  have hlive1 : s.Live 1 := live_of_process h.waiting
  have hlivec : s.Live s.current := live_of_process hp
  have hf1 : f ≠ 1 := fun he => hin.free (he ▸ hlive1)
  have hfc : f ≠ s.current := fun he => hin.free (he ▸ hlivec)
  have hc1 : s.current ≠ 1 := by
    have hnd := h.ring.nodup
    simp only [List.nodup_cons,List.mem_singleton] at hnd
    exact hnd.1
  have hlinkc : s.link s.current = 1 := h.ring.path.1
  have hlink1 : s.link 1 = s.current := h.ring.path.2
  have hl1 : s₁.link s₁.current = f := by
    rw [hin.link,hin.current,Function.update_of_ne hfc.symm,Function.update_self]
  have hp₁ : s₁.process? s₁.current = some p := by
    rw [hin.process,hin.current,if_neg hfc.symm,hp]
  have hnew : s₁.process? f = some (sample (pid+1)) := by
    rw [hin.process,if_pos rfl]
  obtain ⟨s₂,hs₂,hcur₂,hlink₂,hq₂,hother₂,⟨pc,hpc,hpcpid⟩,pf,hpf,hpfpid,hpfst⟩ :=
    nextProcess_front hok₁.unlocked hl1 (by rw [hin.current]; exact hfc) hp₁ hst hnew
  rw [hin.current] at hother₂ hpc
  have hdisp₂ : s₁.dispatch (.queue .nextProcess) = some s₂ := by
    simp only [dispatch,step]
    rw [if_neg (by rw [hin.quantity,h.quantity]; decide)]
    exact hs₂
  have hok₂ : s₂.Ok := dispatch_ok (l := .queue .nextProcess) hok₁ trivial hdisp₂
  have hwait₁ : s₁.process? 1 = some (sample 0) := by
    rw [hin.process,if_neg hf1.symm,h.waiting]
  have hwait₂ : s₂.process? 1 = some (sample 0) := by
    rw [hother₂ 1 hc1.symm hf1.symm,hwait₁]
  have hlf : s₂.link f = 1 := by
    rw [hlink₂,hin.link,Function.update_self,hlinkc]
  have hl₁ : s₂.link 1 = s.current := by
    rw [hlink₂,hin.link,Function.update_of_ne hf1.symm,Function.update_of_ne hc1.symm,hlink1]
  have hlc : s₂.link s.current = f := by
    rw [hlink₂,hin.link,Function.update_of_ne hfc.symm,Function.update_self]
  have hfound : s₂.findRemoved pid (s₂.link s₂.current) maxProcesses s₂.current
      (s₂.link s₂.current) = some (some (1,s.current)) := by
    have hne : (sample 0).pid ≠ pid := by
      show (0 : ℤ) ≠ pid
      omega
    obtain ⟨m,hm⟩ : ∃ m, maxProcesses = m+1+1 := ⟨98,rfl⟩
    rw [hcur₂,hlf,hm,findRemoved,hwait₂,hl₁,findRemoved,hpc]
    simp [hne,hc1,hpcpid,hppid]
  have hquantity₂ : s₂.processQuantity = 3 := by
    rw [hq₂,hin.quantity,h.quantity]
    rfl
  have hdetach : s₂.detach (sample pid) = some (false,s₂.unlink 1 s.current) := by
    unfold detach
    rw [if_neg (by rw [hquantity₂]; decide),if_neg (fun hx => hf1 (by
      have hx := hx.1
      rwa [hcur₂,hlf] at hx))]
    have hpid' : (sample pid).pid = pid := rfl
    rw [hpid',hfound,hcur₂]
    simp [hfc]
  have hdisp₃ : s₂.dispatch (.queue (.removeProcess (some (sample pid)))) =
      some (s₂.unlink 1 s.current) := by
    simp only [dispatch,step,removeProcess_detach,hdetach]
    rfl
  have hcalm : s₂.Unfilled (.queue (.removeProcess (some (sample pid)))) := by
    intro hx
    rw [hquantity₂] at hx
    exact absurd hx (by decide)
  refine ⟨s₁,s₂,_,?_,hdisp₂,hdisp₃,?_,?_,hquantity₂,⟨dispatch_ok hok₂ hcalm hdisp₃,?_,?_,
    ⟨pf,?_,hpfpid,hpfst⟩,?_⟩,?_⟩
  · rw [← hs₁]
    rfl
  · rw [threadState_of hwait₁]
    rfl
  · rw [threadState_of hwait₂]
    rfl
  · show Ring (s₂.unlink 1 s.current).link s₂.current [1]
    rw [link_unlink,hcur₂,hlc]
    refine ⟨by simp [hf1],?_⟩
    rw [Function.update_of_ne hf1,hlf]
    exact ⟨rfl,Function.update_self _ _ _⟩
  · show s₂.processQuantity-1 = 2
    rw [hquantity₂]
    rfl
  · show (s₂.unlink 1 s.current).process? s₂.current = some pf
    rw [process?_unlink,hcur₂,if_neg hfc,hpf]
  · rw [process?_unlink,if_neg hc1.symm,hwait₂]
  · simp [switches,hdetach]

def Passed (s : Scheduler) : Prop := s.threadState 1 0 = some .ready ∧ s.processQuantity ≤ 3

def turnovers : ℕ → ℤ → List DispatchStep
  | 0, _ => []
  | n+1, pid => turnover pid++turnovers n (pid+1)

theorem Pair.passed {pid : ℤ} (h : s.Pair pid) : s.Passed := by
  refine ⟨?_,by rw [h.quantity]; decide⟩
  rw [threadState_of h.waiting]
  rfl

theorem Pair.turnovers {pid : ℤ} (n : ℕ) (h : s.Pair pid) (hpid : 0 < pid) :
    ∃ s', run dispatch s (turnovers n pid) = some s' ∧
      Along dispatch Unfilled s (turnovers n pid) ∧ Always dispatch Passed s (turnovers n pid) ∧
        total dispatch switches s (turnovers n pid) = n := by
  induction n generalizing s pid with
  | zero =>
    refine ⟨s,rfl,trivial,fun pre x hp hx => ?_,rfl⟩
    rw [List.prefix_nil.mp hp] at hx
    obtain rfl := Option.some.inj hx
    exact h.passed
  | succ n ih =>
    obtain ⟨s₁,s₂,s₃,h₁,h₂,h₃,hr₁,hr₂,hq₂,hpair,hw⟩ := h.turnover hpid
    obtain ⟨s',hr,hc,ha,ht⟩ := ih hpair (by omega)
    have hq₁ : s₁.processQuantity = 3 := by
      obtain rfl := Option.some.inj h₁
      rw [processQuantity_addProcess (by rw [h.quantity]; decide),h.quantity]
      rfl
    refine ⟨s',?_,⟨trivial,fun x hx => ⟨trivial,fun y hy => ⟨?_,fun z hz => ?_⟩⟩⟩,?_,?_⟩
    · exact run_cons.mpr ⟨s₁,h₁,run_cons.mpr ⟨s₂,h₂,run_cons.mpr ⟨s₃,h₃,hr⟩⟩⟩
    · obtain rfl := Option.some.inj (h₁.symm.trans hx)
      obtain rfl := Option.some.inj (h₂.symm.trans hy)
      intro hfull
      rw [hq₂] at hfull
      exact absurd hfull (by decide)
    · obtain rfl := Option.some.inj (h₁.symm.trans hx)
      obtain rfl := Option.some.inj (h₂.symm.trans hy)
      obtain rfl := Option.some.inj (h₃.symm.trans hz)
      exact hc
    · refine (always_cons h₁).mpr ⟨h.passed,(always_cons h₂).mpr ⟨⟨hr₁,hq₁.le⟩,
        (always_cons h₃).mpr ⟨⟨hr₂,hq₂.le⟩,ha⟩⟩⟩
    · show total dispatch switches s (_::_::_::turnovers n (pid+1)) = n+1
      rw [total_cons h₁,total_cons h₂,total_cons h₃,hw,ht]
      simp only [switches]
      omega

/-- A process that is next in line waits as long as others come and go: there is no bound
without the new processes in it. -/
theorem starvation (n : ℕ) : ∃ s s',
    run dispatch initializeScheduler [.queue (.addProcess (sample 1)),
      .queue (.addProcess (sample 0))] = some s ∧ s.Waits 1 0 [] [] ∧
    run dispatch s (turnovers n 1) = some s' ∧ Along dispatch Unfilled s (turnovers n 1) ∧
    Always dispatch Passed s (turnovers n 1) ∧ total dispatch switches s (turnovers n 1) = n := by
  obtain ⟨s,hs⟩ : ∃ s, run dispatch initializeScheduler [.queue (.addProcess (sample 1)),
      .queue (.addProcess (sample 0))] = some s := ⟨_,rfl⟩
  have hwaiting : s.process? 1 = some (sample 0) := by
    obtain rfl := Option.some.inj hs
    rfl
  have hpair : s.Pair 1 := by
    refine ⟨?_,?_,?_,⟨sample 1,?_,rfl,rfl⟩,hwaiting⟩
    · have hcalm : Along dispatch Unfilled initializeScheduler [.queue (.addProcess (sample 1)),
          .queue (.addProcess (sample 0))] := ⟨trivial,fun _ _ => ⟨trivial,fun _ _ => trivial⟩⟩
      exact (hcalm.invariant (D := fun _ _ => True) (fun _ _ _ hs hc hn => dispatch_ok hs hc hn)
        (fun _ _ _ _ => trivial) initializeScheduler_ok).2 s hs
    all_goals obtain rfl := Option.some.inj hs
    · exact ⟨by decide,rfl,rfl⟩
    · rfl
    · rfl
  obtain ⟨s',hr,hc,ha,ht⟩ := hpair.turnovers n one_pos
  refine ⟨s,s',hs,⟨by decide,⟨hpair.ring.path.1,List.not_mem_nil⟩,_,hwaiting,⟨rfl,List.not_mem_nil⟩,
    fun u hu => ?_⟩,hr,hc,ha,ht⟩
  obtain rfl : u = 0 := by simpa using hu
  exact ⟨by decide,rfl⟩

end Scheduler
end ComplexOS
