import ComplexOS.Scheduler.ForegroundRuns

/-! # The tree of processes

Children are handed on before a process is taken out of the ring. What the pointer to the
foreground is good for in a kill is one thread that may be made READY, so that here the
label tells which, if any.
-/
namespace ComplexOS

inductive TreeStep
  | createProcess (memory : ProcessRecord) (memoryBase : ℕ)
  | killProcess (pid : ℤ) (woken : Option (ℤ × ℤ))
  | nextProcess
  | update (i : ℤ) (p : ProcessRecord)

namespace Scheduler

def wake (s : Scheduler) : Option (ℤ × ℤ) → Option Scheduler
  | none => some s
  | some (pid,thread) => s.changeThreadState pid thread .ready

inductive Lineage (s : Scheduler) : ProcessRecord → List ProcessRecord → Prop
  | root {p : ProcessRecord} (h : p.ppid = -1) : Lineage s p []
  | child {p q : ProcessRecord} {j : ℤ} {qs : List ProcessRecord} (hq : s.Has j q)
    (hpid : q.pid = p.ppid) (h : Lineage s q qs) : Lineage s p (q::qs)

structure Tree (s : Scheduler) : Prop where
  distinct : ∀ i j p q, s.Has i p → s.Has j q → p.pid = q.pid → i = j
  younger : ∀ i p, s.Has i p → p.ppid < p.pid
  parent : ∀ i p, s.Has i p → p.ppid = -1 ∨ ∃ j q, s.Has j q ∧ j ≠ i ∧ q.pid = p.ppid
  lineage : ∀ i p, s.Has i p → ∃ qs, s.Lineage p qs

end Scheduler

namespace Session
open Scheduler ProcessRecord Runs

/-- `killProcess` with any pointer to the foreground. -/
def kill (s : Session) (pid : ℤ) (woken : Option (ℤ × ℤ)) : Option (Ending × Session) :=
  (s.scheduler.getProcessIndex pid).bind (fun index => match index with
    | none => some (.returned,s)
    | some i => (s.scheduler.changeChildrenToOrphan pid).bind (fun d => (d.wake woken).bind (fun d =>
      removeProcess { s with scheduler := d } i)))

/-- A creation is `createProcess` with `addProcess` behind it. Without any process there is
nothing to switch to. -/
def treeStep (s : Session) : TreeStep → Option Session
  | .createProcess memory memoryBase =>
    (s.createProcess memory memoryBase).map (fun x => x.2.addProcess x.1)
  | .killProcess pid woken => (s.kill pid woken).bind settle
  | .nextProcess => if s.scheduler.processQuantity = 0 then none else s.nextProcess
  | .update i p => s.step (.update i p)

/-- No process goes in front of the table. -/
def Inside (s : Session) : TreeStep → Prop
  | .createProcess _ _ => s.HasSlot
  | _ => True

structure Related (s : Session) : Prop where
  ok : s.Ok
  rooted : Rooted s.scheduler

variable {s s' t : Session} {d d' : Scheduler} {p q memory : ProcessRecord} {i j r pid : ℤ} {a : ℕ}
  {e : Ending} {woken : Option (ℤ × ℤ)} {l : TreeStep} {slots : List ℤ}

theorem wake_resembles (h : d.wake woken = some d') : Resembles ProcessRecord.ppid d d' := by
  unfold wake at h
  cases woken with
  | none =>
    cases h
    exact Resembles.refl d
  | some w => exact changeThreadState_resembles h

theorem removeProcess_foreground {fg : Option ℤ} {n : ℤ}
    (h : removeProcess ⟨d,fg,n⟩ i = some (e,t)) (hn : n = s.nextPid) :
    removeProcess { s with scheduler := d } i = some (e,{ t with foreground := s.foreground }) := by
  obtain ⟨q,hq,hx⟩ := Option.bind_eq_some_iff.mp h
  obtain ⟨x,hd,hx⟩ := Option.map_eq_some_iff.mp hx
  obtain ⟨rfl,rfl⟩ := Prod.mk.inj hx
  subst hn
  unfold removeProcess
  dsimp only at hq hd ⊢
  rw [hq,Option.bind_some,hd,Option.map_some]

/-- The kills of a session are of this kind. -/
theorem killProcess_kill (h : s.killProcess pid = some (e,t)) (he : e ≠ .lost) :
    ∃ woken, s.kill pid woken = some (e,{ t with foreground := s.foreground }) := by
  unfold kill
  obtain ⟨index,hindex,hx⟩ := Option.bind_eq_some_iff.mp h
  simp only [hindex,Option.bind_some]
  cases index with
  | none =>
    cases hx
    exact ⟨none,rfl⟩
  | some i =>
    obtain ⟨d,hd,hfront⟩ := Option.bind_eq_some_iff.mp hx
    obtain ⟨fg,hfg,hrest⟩ := Option.bind_eq_some_iff.mp hfront
    simp only [hd,Option.bind_some]
    split at hrest
    · simp only [leaveForeground,Option.bind_eq_bind,Option.bind_eq_some_iff] at hrest
      obtain ⟨p,-,s₁,hs₁,hleave⟩ := hrest
      split at hleave
      · cases hleave
        exact absurd rfl he
      obtain ⟨s₂,hs₂,hremove⟩ := Option.bind_eq_some_iff.mp hleave
      obtain ⟨f,-,hready⟩ := Option.bind_eq_some_iff.mp hs₂
      obtain ⟨d',hd',rfl⟩ := Option.map_eq_some_iff.mp hready
      have hsame : s₁.scheduler = d ∧ s₁.nextPid = s.nextPid := by
        obtain ⟨index,-,rfl⟩ := Option.map_eq_some_iff.mp hs₁
        exact ⟨rfl,rfl⟩
      rw [hsame.1] at hd'
      refine ⟨some (f.pid,f.currentThread),?_⟩
      rw [wake,hd',Option.bind_some]
      exact removeProcess_foreground hremove hsame.2
    · exact ⟨none,removeProcess_foreground hrest rfl⟩

/-! ### Additions -/

theorem Related.create (h : s.Related) (hv : s.HasSlot)
    (hx : s.treeStep (.createProcess memory a) = some s') : s'.Related := by
  obtain ⟨⟨p,t⟩,hc,rfl⟩ := Option.map_eq_some_iff.mp hx
  obtain ⟨hp,rfl⟩ := createProcess_cases hc
  have hpos : 0 < p.pid := hp.pid ▸ h.ok.nextPid
  have hnext : p.pid < s.nextPid+1 := hp.pid ▸ Int.lt_succ _
  obtain ⟨-,hadd⟩ | ⟨-,j,d,hj,hadd⟩ := addProcess_cases p h.ok.created hv
  · rw [hadd]
    exact ⟨h.ok.created,h.rooted⟩
  rw [hadd]
  refine ⟨h.ok.created.added hj hpos hnext (h.ok.absent hp.pid.ge),?_⟩
  obtain ⟨slots,hs⟩ := h.ok.queued
  by_cases h0 : s.scheduler.processQuantity = 0
  · have hppid := hp.ppid
    unfold Scheduler.getpid at hppid
    rw [if_pos h0] at hppid
    intro i q hq
    rcases hj.has.mp hq with hq | ⟨-,rfl⟩
    · have hmem := hs.mem hq
      rw [hs.empty h0] at hmem
      cases hmem
    · exact Or.inl (Option.some.inj hppid).symm
  · obtain ⟨c,hc⟩ := hs.mem_iff.mp (hs.current_mem h0)
    obtain ⟨hppid,hlt⟩ := hp.rooted h.ok hc h0
    exact h.rooted.added hj hc hppid hlt

/-! ### Kills -/

theorem Related.kill (h : s.Related) (hx : (s.kill pid woken).bind settle = some s') :
    s'.Related := by
  obtain ⟨slots,hs⟩ := h.ok.queued
  obtain ⟨⟨e,t⟩,hk,hx⟩ := Option.bind_eq_some_iff.mp hx
  obtain ⟨index,hindex,hk⟩ := Option.bind_eq_some_iff.mp hk
  obtain ⟨hn,-⟩ | ⟨r,p,hi,hp,hpid⟩ := hs.getProcessIndex pid
  · cases hindex.symm.trans hn
    cases hk
    cases hx
    exact h
  cases hindex.symm.trans hi
  obtain ⟨d,hd,hwake⟩ := Option.bind_eq_some_iff.mp hk
  obtain ⟨d',hd',hremove⟩ := Option.bind_eq_some_iff.mp hwake
  obtain ⟨d₁,hd₁,hres⟩ := hs.changeChildrenToOrphan h.ok.distinct hp
  rw [hpid] at hd₁
  obtain rfl : d₁ = d := Option.some.inj (hd₁.symm.trans hd)
  have hall := hres.trans (wake_resembles hd')
  obtain ⟨y,hy,-,-⟩ := hall.has_of hp
  have hok : Ok { s with scheduler := d' } := h.ok.resembles hall
  obtain ⟨b,x,hdet,rfl,rfl⟩ := removeProcess_cases hok hy hremove
  obtain ⟨z,hz,rfl,hids⟩ := settle_cases hx
  have hrem := hdet.removed hy.2 hok.unlocked hz
  have hsame := hdet.sameIds.trans hids
  exact ⟨hok.removed hrem hsame,h.rooted.removed hp hall hrem hsame (h.ok.pids r p hp).1⟩

theorem Related.step (h : s.Related) (hc : s.Inside l) (hx : s.treeStep l = some s') :
    s'.Related := by
  cases l with
  | createProcess memory memoryBase => exact h.create hc hx
  | killProcess pid woken => exact h.kill hx
  | nextProcess =>
    obtain ⟨h0,hx⟩ := Option.ite_none_left_eq_some.mp hx
    obtain ⟨d,hd,rfl⟩ := Option.map_eq_some_iff.mp hx
    obtain ⟨hok,hl⟩ := h.ok.nextProcess h0 hd
    exact ⟨hok,h.rooted.ids (nextProcess_ids hd) hl⟩
  | update i p =>
    obtain ⟨q,hq,hx⟩ := Option.bind_eq_some_iff.mp hx
    obtain ⟨⟨hpid,hppid⟩,hx⟩ := Option.ite_none_right_eq_some.mp hx
    cases hx
    obtain ⟨hok,hl⟩ := h.ok.update hq hpid hppid
    exact ⟨hok,h.rooted.ids (sameIds_setProcess hq hpid hppid) hl⟩

/-! ### Lineages -/

/-- Each parent is older, so that the way up ends. -/
theorem Related.lineage (h : s.Related) (n : ℕ) (hp : s.scheduler.Has i p) (hn : p.pid < n) :
    ∃ qs, s.scheduler.Lineage p qs := by
  induction n generalizing i p with
  | zero =>
    have hpos := (h.ok.pids i p hp).1
    omega
  | succ n ih =>
    rcases h.rooted i p hp with hroot | ⟨hlt,j,q,hq,hpid⟩
    · exact ⟨[],.root hroot⟩
    · obtain ⟨qs,hqs⟩ := ih hq (by omega)
      exact ⟨q::qs,.child hq hpid hqs⟩

theorem Related.tree (h : s.Related) : s.scheduler.Tree := by
  have hyounger : ∀ i p, s.scheduler.Has i p → p.ppid < p.pid := by
    intro i p hp
    have hpos := (h.ok.pids i p hp).1
    rcases h.rooted i p hp with hroot | ⟨hlt,-⟩
    · omega
    · exact hlt
  refine ⟨h.ok.distinct,hyounger,fun i p hp => ?_,fun i p hp => ?_⟩
  · refine (h.rooted i p hp).imp_right ?_
    rintro ⟨hlt,j,q,hq,hpid⟩
    refine ⟨j,q,hq,?_,hpid⟩
    rintro rfl
    rw [← hpid,hq.eq hp] at hlt
    exact lt_irrefl _ hlt
  · exact h.lineage (p.pid.toNat+1) hp (by omega)

variable {s₀ : Session} {init shell : ProcessRecord} {b : ℕ} {ls : List TreeStep}

/-- As long as no process goes in front of the table. -/
theorem process_tree (h₀ : startSystem init shell a b = some s₀) (h : run treeStep s₀ ls = some s)
    (hc : Along treeStep Inside s₀ ls) : s.scheduler.Tree := by
  have hruled := startSystem_ruled h₀
  have hrelated : s.Related := (Along.invariant (I := Related) (D := Inside)
    (fun _ _ _ => Related.step) (fun _ _ _ => id) ⟨hruled.ok,hruled.rooted⟩ hc).2 s h
  exact hrelated.tree

/-- The first process starts a child, which is killed, and then the shell. -/
theorem process_tree_plain : ∃ s₀ s, startSystem (sample 0) (sample 0) 0 0 = some s₀ ∧
    run treeStep s₀ [.createProcess (sample 0) 0,.killProcess 3 none,.killProcess 2 (some (1,0))] =
      some s ∧ s.scheduler.Tree := by
  have h₀ : startSystem (sample 0) (sample 0) 0 0 = some _ := rfl
  refine ⟨_,_,h₀,rfl,process_tree h₀ (rfl : run treeStep _ [.createProcess (sample 0) 0,
    .killProcess 3 none,.killProcess 2 (some (1,0))] = some _) ⟨fun _ _ => ?_,fun _ _ => ?_⟩⟩
  · decide
  · exact ⟨trivial,fun _ _ => ⟨trivial,fun _ _ => trivial⟩⟩

/-! ### A process in front of the table -/

variable {c : ProcessRecord}

/-- A kill of the process behind the current one needs no switch. -/
theorem Ok.kill_next (h : s.Ok) (hp : s.scheduler.Has (s.scheduler.link s.scheduler.current) p)
    (hne : s.scheduler.link s.scheduler.current ≠ s.scheduler.current) :
    ∃ d, Resembles (adoptive p.pid p.ppid) s.scheduler d ∧ s.treeStep (.killProcess p.pid none) =
      some { s with scheduler := d.unlink s.scheduler.current (s.scheduler.link s.scheduler.current) } := by
  obtain ⟨slots,hs⟩ := h.queued
  obtain ⟨d,hd,hres⟩ := hs.changeChildrenToOrphan h.distinct hp
  obtain ⟨q,hq,hsim,-⟩ := hres.has_of hp
  have hlink := hres.queue.link
  have hcurrent := hres.queue.current
  have hquantity : d.processQuantity ≠ 0 := by
    rw [hres.queue.quantity]
    intro h0
    have hmem := hs.mem hp
    rw [hs.empty h0] at hmem
    cases hmem
  have hfound : d.findRemoved q.pid (d.link d.current) maxProcesses d.current (d.link d.current) =
      some (some (d.current,d.link d.current)) := by
    rw [maxProcesses,findRemoved,hlink,hcurrent,hq.2]
    simp
  have hdetach : d.detach q = some (false,d.unlink d.current (d.link d.current)) := by
    rw [detach,if_neg hquantity,if_neg,hfound]
    · rw [hlink,hcurrent]
      simp [hne.symm]
    · rw [hlink,hcurrent]
      exact fun hx => hne hx.1.symm
  refine ⟨d,hres,?_⟩
  unfold treeStep kill
  simp only [hs.getProcessIndex_has h.distinct hp,Option.bind_some,hd,wake,removeProcess,hq.2,hdetach,
    Option.map_some,settle,hlink,hcurrent]
  rfl

structure Dropped (s : Session) (r : ℤ) (s' : Session) : Prop where
  related : s'.Related
  free : ¬ s'.scheduler.Live r
  quantity : s'.scheduler.processQuantity+1 = s.scheduler.processQuantity
  nextPid : s'.nextPid = s.nextPid
  current : s'.scheduler.current = s.scheduler.current
  next : s'.scheduler.link s.scheduler.current = s.scheduler.link r
  space : s.scheduler.firstAvailableSpace = -1 → s'.scheduler.firstAvailableSpace = -1
  has : ∀ i x, s.scheduler.Has i x → i ≠ r → ∃ y, s'.scheduler.Has i y ∧ Similar x y

theorem Related.drop (h : s.Related) (hp : s.scheduler.Has (s.scheduler.link s.scheduler.current) p)
    (hne : s.scheduler.link s.scheduler.current ≠ s.scheduler.current) :
    ∃ s', s.treeStep (.killProcess p.pid none) = some s' ∧
      Dropped s (s.scheduler.link s.scheduler.current) s' := by
  obtain ⟨d,hres,hx⟩ := h.ok.kill_next hp hne
  generalize hr : s.scheduler.link s.scheduler.current = r at *
  refine ⟨_,hx,h.step (l := .killProcess p.pid none) trivial hx,?_,?_,rfl,hres.queue.current,?_,?_,?_⟩
  · rw [Live,process?_unlink,if_pos rfl]
    exact Bool.false_ne_true
  · change d.processQuantity-1+1 = _
    rw [Int.sub_add_cancel,hres.queue.quantity]
  · change (d.unlink _ r).link _ = _
    rw [link_unlink,Function.update_self,hres.queue.link]
  · intro hspace
    change (if d.firstAvailableSpace > r then r else d.firstAvailableSpace) = -1
    rw [hres.queue.space,hspace,if_neg]
    have hr0 := hp.1.1
    omega
  · intro i x hx hir
    obtain ⟨y,hy,hsim,-⟩ := hres.has_of hx
    refine ⟨y,⟨hy.1,?_⟩,hsim⟩
    change (d.unlink _ r).process? i = _
    rw [process?_unlink,if_neg hir]
    exact hy.2

structure Stacked (s : Session) (a b : ℤ) : Prop where
  related : s.Related
  slot : s.HasSlot
  next : s.scheduler.link s.scheduler.current = a
  behind : s.scheduler.link a = b
  youngest : ∃ p, s.scheduler.Has a p ∧ p.pid = s.nextPid-1 ∧ a ≠ s.scheduler.current
  older : ∃ q, s.scheduler.Has b q ∧ q.pid = s.nextPid-2 ∧ b ≠ s.scheduler.current
  thread : ∃ c, s.scheduler.Has s.scheduler.current c ∧ (c.threadState c.currentThread).isSome

theorem getpid_eq (h0 : s.scheduler.processQuantity ≠ 0)
    (hc : s.scheduler.process? s.scheduler.current = some c) : s.scheduler.getpid = some c.pid := by
  rw [Scheduler.getpid,if_neg h0,hc]
  rfl

/-- A creation with one READY thread. -/
theorem createProcess_sample (h : s.scheduler.getpid = some pid) (hn : s.nextPid < maxInt) :
    ∃ p, s.createProcess (sample 0) 0 = some (p,{ s with nextPid := s.nextPid+1 }) ∧
      p.pid = s.nextPid ∧ p.ppid = pid ∧ p.nextThread = some (0,p) := by
  unfold Session.createProcess increment
  rw [h,Option.bind_some,if_pos hn]
  exact ⟨_,rfl,rfl,rfl,rfl⟩

theorem Stacked.create {a b : ℤ} (h : Stacked s a b) (h0 : s.scheduler.processQuantity ≠ 0)
    (hq : s.scheduler.processQuantity ≠ maxProcesses) (hn : s.nextPid < maxInt) :
    ∃ s' j, s.treeStep (.createProcess (sample 0) 0) = some s' ∧ Stacked s' j a ∧
      s'.scheduler.processQuantity = s.scheduler.processQuantity+1 ∧ s'.nextPid = s.nextPid+1 := by
  obtain ⟨c,hc,hthread⟩ := h.thread
  obtain ⟨p,hp,hpid,-,-⟩ := createProcess_sample (getpid_eq h0 hc.2) hn
  have hstep : s.treeStep (.createProcess (sample 0) 0) =
      some (Session.addProcess { s with nextPid := s.nextPid+1 } p) := by
    show (s.createProcess (sample 0) 0).map _ = _
    rw [hp]
    rfl
  have hplaced : Placed s.scheduler p
      (Session.addProcess { s with nextPid := s.nextPid+1 } p).scheduler := addProcess_placed p h0 hq
  have hrelated := h.related.create h.slot hstep
  obtain ⟨hfull,-⟩ | ⟨-,j,d,hj,hadd⟩ := addProcess_cases p h.related.ok.created h.slot
  · exact absurd hfull hq
  obtain ⟨ht,hfree⟩ := h.related.ok.slot hq (h.slot h0 hq)
  have hne : s.scheduler.current ≠ s.scheduler.firstAvailableSpace := fun he =>
    hfree (he ▸ live_of_process hc.2)
  have hold : ∀ i x, s.scheduler.Has i x → d.Has i x := fun i x hx => hj.has.mpr (Or.inl hx)
  rw [hadd] at hstep hplaced hrelated
  obtain ⟨y,hy,hypid,hya⟩ := h.youngest
  obtain ⟨hnext,hbehind⟩ := hplaced.next hne
  have hcurrent : d.current = s.scheduler.current := hplaced.current
  refine ⟨_,s.scheduler.firstAvailableSpace,hstep,⟨hrelated,fun _ => hj.slot,hnext,
    hbehind.trans h.next,⟨p,⟨ht,?_⟩,?_,?_⟩,⟨y,hold a y hy,?_,?_⟩,c,?_,hthread⟩,hplaced.quantity,rfl⟩
  · exact (hplaced.process _).trans (if_pos rfl)
  · rw [hpid]
    exact (Int.add_sub_cancel _ _).symm
  · rw [hplaced.current]
    exact hne.symm
  · rw [hypid]
    change s.nextPid-1 = s.nextPid+1-2
    omega
  · rw [hplaced.current]
    exact hya
  · change d.Has d.current c
    rw [hcurrent]
    exact hold _ c hc

def creations (n : ℕ) : List TreeStep := List.replicate n (.createProcess (sample 0) 0)

theorem Stacked.creations {n : ℕ} {a b : ℤ} (h : Stacked s a b) (h0 : 0 < s.scheduler.processQuantity)
    (hq : s.scheduler.processQuantity+n ≤ maxProcesses) (hn : s.nextPid+n ≤ maxInt) :
    ∃ s' a b, run treeStep s (creations n) = some s' ∧ Stacked s' a b ∧
      s'.scheduler.processQuantity = s.scheduler.processQuantity+n ∧ s'.nextPid = s.nextPid+n := by
  induction n generalizing s a b with
  | zero => exact ⟨s,a,b,rfl,h,(Int.add_zero _).symm,(Int.add_zero _).symm⟩
  | succ n ih =>
    obtain ⟨t,j,ht,hstack,hquantity,hnext⟩ := h.create (by omega) (by omega) (by omega)
    obtain ⟨s',a',b',hr,hs',hq',hn'⟩ := ih hstack (by omega) (by omega) (by omega)
    refine ⟨s',a',b',run_cons.mpr ⟨t,ht,hr⟩,hs',by omega,by omega⟩

/-- The table has been full, two processes are gone, and the sentinel is still there. The next
creation goes in front of the table, and so the next but one has no parent in it. -/
theorem Related.lost_parent (h : s.Related) (h0 : 0 < s.scheduler.processQuantity)
    (hq : s.scheduler.processQuantity+1 < maxProcesses) (hs : s.scheduler.firstAvailableSpace = -1)
    (hf : InTable r ∧ ¬ s.scheduler.Live r) (hc : s.scheduler.Has s.scheduler.current c)
    (ht : (c.threadState c.currentThread).isSome) (hn : s.nextPid+1 < maxInt) :
    ∃ t, run treeStep s [.createProcess (sample 0) 0,.nextProcess,.createProcess (sample 0) 0] =
      some t ∧ ¬ t.scheduler.Tree := by
  obtain ⟨p,hp,hpid,-,hready⟩ := createProcess_sample (getpid_eq h0.ne' hc.2) (by omega)
  generalize hs₁ : Session.addProcess { s with nextPid := s.nextPid+1 } p = s₁
  have hplaced : Placed s.scheduler p s₁.scheduler := hs₁ ▸ addProcess_placed p h0.ne' (by omega)
  have hstep₁ : s.treeStep (.createProcess (sample 0) 0) = some s₁ := by
    show (s.createProcess (sample 0) 0).map _ = _
    rw [hp]
    exact congrArg some hs₁
  have hnext₁ : s₁.nextPid = s.nextPid+1 := hs₁ ▸ rfl
  -- the switch to the process in front of the table
  have hcurrent : s₁.scheduler.process? s₁.scheduler.current = some c := by
    rw [hplaced.current,hplaced.process,hs,if_neg hc.1.ne_front]
    exact hc.2
  obtain ⟨d,hd⟩ := demoteCurrent_some hcurrent ht
  have hsame := demoteCurrent_same hd
  have hfront : s₁.scheduler.link s₁.scheduler.current = -1 :=
    (hplaced.next (hs ▸ hc.1.ne_front)).1.trans hs
  have hlink : d.link d.current = -1 := by rw [hsame.link,hsame.current,hfront]
  have hnew : d.process? (-1) = some p := by
    rw [demoteCurrent_process hd (by rw [hplaced.current]; exact hc.1.ne_front.symm),hplaced.process,
      if_pos hs.symm]
  have hlock : s₁.scheduler.changeLock ≠ 1 := by
    rw [hplaced.changeLock,h.ok.unlocked]
    decide
  have hswitch := nextProcess_next hlock hd (hlink ▸ hnew) hready (by decide)
  rw [hlink] at hswitch
  generalize hd₂ : ({ d.setProcess (-1) (some (p.setThreadState p.currentThread .running)) with
    current := -1
    quantum := fullQuantum } : Scheduler) = d₂ at hswitch
  have hquantity : d₂.processQuantity = s.scheduler.processQuantity+1 := by
    rw [← hplaced.quantity,← hsame.quantity,← hd₂]
    rfl
  have hstep₂ : s₁.treeStep .nextProcess = some { s₁ with scheduler := d₂ } := by
    show (if _ then _ else _) = _
    rw [hplaced.quantity,if_neg (by omega),Session.nextProcess,hswitch]
    rfl
  have hprocess : ∀ i, d₂.process? i = if i = -1 then
      some (p.setThreadState p.currentThread .running) else d.process? i := by
    intro i
    rw [← hd₂]
    exact process?_setProcess
  -- the child of that process
  have hcaller : d₂.process? d₂.current = some (p.setThreadState p.currentThread .running) := by
    rw [hprocess,if_pos (by rw [← hd₂])]
  obtain ⟨q,hq₂,hqpid,hqppid,-⟩ := createProcess_sample (s := { s₁ with scheduler := d₂ })
    (getpid_eq (by rw [hquantity]; omega) hcaller) (by rw [hnext₁]; exact hn)
  have hplaced₂ : Placed d₂ q (d₂.addProcess q).1 :=
    addProcess_placed q (by rw [hquantity]; omega) (by rw [hquantity]; omega)
  have hstep₃ : treeStep { s₁ with scheduler := d₂ } (.createProcess (sample 0) 0) =
      some ⟨(d₂.addProcess q).1,s₁.foreground,s₁.nextPid+1⟩ := by
    show (createProcess _ (sample 0) 0).map _ = _
    rw [hq₂]
    rfl
  refine ⟨_,run_cons.mpr ⟨s₁,hstep₁,run_cons.mpr ⟨_,hstep₂,run_cons.mpr ⟨_,hstep₃,rfl⟩⟩⟩,fun htree => ?_⟩
  have hslot : InTable d₂.firstAvailableSpace := by
    have hspace : d₂.firstAvailableSpace = s₁.scheduler.findFirstAvailableSpace := by
      rw [← hplaced.space,← hsame.space,← hd₂]
      rfl
    rw [hspace]
    refine (findFirst_of_free hf.1 ?_).1
    rw [Live,hplaced.process,hs,if_neg hf.1.ne_front]
    exact hf.2
  have hchild : (d₂.addProcess q).1.Has d₂.firstAvailableSpace q := by
    refine ⟨hslot,?_⟩
    rw [hplaced₂.process,if_pos rfl]
  have hparent : q.ppid = s.nextPid := hqppid.trans hpid
  have hpos := h.ok.nextPid
  rcases htree.parent _ q hchild with hroot | ⟨j,x,hx,hjk,hxpid⟩
  · omega
  · have hx₂ := hx.2
    rw [hplaced₂.process,if_neg hjk,hprocess,if_neg hx.1.ne_front] at hx₂
    obtain ⟨y,hy,hypid,-⟩ := demoteCurrent_ids hd j x ⟨hx.1,hx₂⟩
    have hold := hy.2
    rw [hplaced.process,hs,if_neg hx.1.ne_front] at hold
    have hlt := (h.ok.pids j y ⟨hx.1,hold⟩).2
    omega

/-- The first two processes and one child. -/
theorem stacked_three : ∃ s₀ s, startSystem (sample 0) (sample 0) 0 0 = some s₀ ∧
    run treeStep s₀ (creations 1) = some s ∧ Stacked s 2 1 ∧ s.scheduler.processQuantity = 3 ∧
      s.nextPid = 4 := by
  have h₀ : startSystem (sample 0) (sample 0) 0 0 = some _ := rfl
  have hruled := startSystem_ruled h₀
  refine ⟨_,_,h₀,rfl,⟨?_,?_,rfl,rfl,⟨_,⟨by decide,rfl⟩,rfl,by decide⟩,⟨_,⟨by decide,rfl⟩,rfl,by decide⟩,
    _,⟨by decide,rfl⟩,rfl⟩,rfl,rfl⟩
  · exact Related.create ⟨hruled.ok,hruled.rooted⟩ (by decide) rfl
  · decide

/-- The table is filled, the two youngest processes are killed, and another one is created. It
runs and creates a child. -/
theorem process_tree_fails : ∃ s₀ s, startSystem (sample 0) (sample 0) 0 0 = some s₀ ∧
    run treeStep s₀ (creations 98++[.killProcess 100 none,.killProcess 99 none,
      .createProcess (sample 0) 0,.nextProcess,.createProcess (sample 0) 0]) = some s ∧
        ¬ s.scheduler.Tree := by
  obtain ⟨s₀,s₁,h₀,h₁,hstack₁,hquantity₁,hnext₁⟩ := stacked_three
  obtain ⟨s₂,a,b,h₂,hstack,hquantity,hnext⟩ := hstack₁.creations (n := 97) (by omega)
    (by rw [hquantity₁]; decide) (by rw [hnext₁]; decide)
  rw [hquantity₁] at hquantity
  rw [hnext₁] at hnext
  obtain ⟨p,hp,hppid,hpne⟩ := hstack.youngest
  obtain ⟨q,hq,hqpid,hqne⟩ := hstack.older
  obtain ⟨c,hc,hthread⟩ := hstack.thread
  have hfull : s₂.scheduler.firstAvailableSpace = -1 := hstack.related.ok.full hquantity
  have hab : b ≠ a := by
    rintro rfl
    have heq := congrArg ProcessRecord.pid (hq.eq hp)
    omega
  obtain ⟨s₃,h₃,hdrop⟩ := hstack.related.drop (hstack.next ▸ hp) (hstack.next ▸ hpne)
  rw [hstack.next] at hdrop
  have hnext₃ : s₃.scheduler.link s₃.scheduler.current = b := by
    rw [hdrop.current,hdrop.next,hstack.behind]
  obtain ⟨q',hq',hsim⟩ := hdrop.has b q hq hab
  obtain ⟨c',hc',hsimc⟩ := hdrop.has _ c hc hpne.symm
  obtain ⟨s₄,h₄,hdrop'⟩ := hdrop.related.drop (hnext₃ ▸ hq') (by rw [hnext₃,hdrop.current]; exact hqne)
  rw [hnext₃] at hdrop'
  obtain ⟨c'',hc'',hsimc'⟩ := hdrop'.has _ c' hc' hqne.symm
  have hquantity₃ := hdrop.quantity
  have hquantity₄ := hdrop'.quantity
  obtain ⟨t,ht,hbad⟩ := hdrop'.related.lost_parent (c := c'') (by omega) (by rw [maxProcesses]; omega)
    (hdrop'.space (hdrop.space hfull)) ⟨hq.1,hdrop'.free⟩
    (by rw [hdrop'.current,hdrop.current]; exact hc'')
    (by rw [hsimc'.thread,hsimc'.currentThread,hsimc.thread,hsimc.currentThread]; exact hthread)
    (by rw [hdrop'.nextPid,hdrop.nextPid,hnext]; decide)
  refine ⟨s₀,t,h₀,?_,hbad⟩
  have hpid : p.pid = 100 := by omega
  have hqid : q'.pid = 99 := by
    rw [hsim.pid]
    omega
  rw [hpid] at h₃
  rw [hqid] at h₄
  have hsplit : creations 98 = creations 1++creations 97 := rfl
  rw [hsplit]
  refine run_append.mpr ⟨s₂,?_,run_cons.mpr ⟨s₃,h₃,run_cons.mpr ⟨s₄,h₄,ht⟩⟩⟩
  exact run_append.mpr ⟨s₁,h₁,h₂⟩

end Session
end ComplexOS
