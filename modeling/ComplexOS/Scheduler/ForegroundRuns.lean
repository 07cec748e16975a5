import ComplexOS.Scheduler.RunQueueRuns
import ComplexOS.Scheduler.SessionCalls

/-! # The foreground

It is handed to each process that is created in front and back to its parent. In between
the processor is switched, and the records are changed by everything else the kernel does.
-/
namespace ComplexOS

inductive SessionStep
  | sysRunProcess (memory : ProcessRecord) (memoryBase : ℕ) (background : Bool)
  | killProcess (pid : ℤ)
  | killForeground
  | nextProcess
  | update (i : ℤ) (p : ProcessRecord)

namespace Session
open Scheduler ProcessRecord Runs

def nextProcess (s : Session) : Option Session :=
  s.scheduler.nextProcess.map (fun d => { s with scheduler := d })

/-- The yield is the switch it performs. -/
def settle (x : Ending × Session) : Option Session :=
  if x.1 = .yields then x.2.nextProcess else some x.2

def step (s : Session) : SessionStep → Option Session
  | .sysRunProcess memory memoryBase background => s.sysRunProcess memory memoryBase background
  | .killProcess pid => (s.killProcess pid).bind settle
  | .killForeground => s.killForeground.bind settle
  | .nextProcess => s.nextProcess
  | .update i p => (s.scheduler.process? i).bind (fun q =>
    if p.pid = q.pid ∧ p.ppid = q.ppid then
      some { s with scheduler := s.scheduler.setProcess i (some p) }
    else none)

def ForegroundLive (s : Session) : Prop := ∃ slots i p, s.scheduler.Queued slots ∧ i ∈ slots ∧
  s.scheduler.process? i = some p ∧ s.foreground = some p.pid

/-- Nobody has created the process, or those who have are gone. -/
def Rootless (s : Session) (pid : ℤ) : Prop :=
  ∃ i p, s.scheduler.Has i p ∧ p.pid = pid ∧ p.ppid = -1

/-- No process is killed in the foreground that has no parent, none is created there in a full
table, and none anywhere in front of the table. -/
def Calm (s : Session) : SessionStep → Prop
  | .sysRunProcess _ _ background =>
    s.HasSlot ∧ (background = false → s.scheduler.processQuantity ≠ maxProcesses)
  | .killProcess pid => s.foreground = some pid → ¬ s.Rootless pid
  | .killForeground => ∀ pid, s.foreground = some pid → ¬ s.Rootless pid
  | _ => True

def Rooted (d : Scheduler) : Prop := ∀ i p, d.Has i p →
  p.ppid = -1 ∨ p.ppid < p.pid ∧ ∃ j q, d.Has j q ∧ q.pid = p.ppid

structure Ruled (s : Session) : Prop where
  ok : s.Ok
  rooted : Rooted s.scheduler
  foreground : ∃ i p, s.scheduler.Has i p ∧ s.foreground = some p.pid

variable {s s' : Session} {d d' : Scheduler} {p q memory : ProcessRecord} {i j r pid : ℤ} {a : ℕ}
  {e : Ending} {background : Bool} {b : Bool} {l : SessionStep}

theorem Ruled.quantity_ne (h : s.Ruled) : s.scheduler.processQuantity ≠ 0 := by
  intro h0
  obtain ⟨slots,hs⟩ := h.ok.queued
  obtain ⟨i,p,hp,-⟩ := h.foreground
  have hmem := hs.mem hp
  rw [hs.empty h0] at hmem
  cases hmem

theorem Ruled.live (h : s.Ruled) : s.ForegroundLive := by
  obtain ⟨slots,hs⟩ := h.ok.queued
  obtain ⟨i,p,hp,hf⟩ := h.foreground
  exact ⟨slots,i,p,hs,hs.mem hp,hp.2,hf⟩

theorem Rooted.ids (h : Rooted d) (hi : SameIds d d') (hl : ∀ i, d'.Live i ↔ d.Live i) :
    Rooted d' := by
  intro i q hq
  obtain ⟨p,hp,hpid,hppid⟩ := hi i q hq
  rw [hpid,hppid]
  refine (h i p hp).imp_right (And.imp_right ?_)
  rintro ⟨j,x,hx,hxpid⟩
  obtain ⟨y,hy⟩ := Option.isSome_iff_exists.mp ((hl j).mpr (live_of_process hx.2))
  obtain ⟨x',hx',hpid',-⟩ := hi j y ⟨hx.1,hy⟩
  obtain rfl : x = x' := hx.eq hx'
  exact ⟨j,y,⟨hx.1,hy⟩,hpid'.trans hxpid⟩

/-- Switches and changes inside the records. -/
theorem Ruled.ids (h : s.Ruled) (hok : Ok { s with scheduler := d })
    (hi : SameIds s.scheduler d) (hl : ∀ i, d.Live i ↔ s.scheduler.Live i) :
    Ruled { s with scheduler := d } := by
  refine ⟨hok,h.rooted.ids hi hl,?_⟩
  obtain ⟨i,p,hp,hf⟩ := h.foreground
  obtain ⟨q,hq⟩ := Option.isSome_iff_exists.mp ((hl i).mpr (live_of_process hp.2))
  obtain ⟨p',hp',hpid,-⟩ := hi i q ⟨hp.1,hq⟩
  obtain rfl : p = p' := hp.eq hp'
  exact ⟨i,q,⟨hp.1,hq⟩,hpid ▸ hf⟩

theorem Ruled.nextProcess (h : s.Ruled) (hn : s.nextProcess = some s') : s'.Ruled := by
  obtain ⟨d,hd,rfl⟩ := Option.map_eq_some_iff.mp hn
  obtain ⟨hok,hl⟩ := h.ok.nextProcess h.quantity_ne hd
  exact h.ids hok (nextProcess_ids hd) hl

theorem Ruled.update (h : s.Ruled) (hq : s.scheduler.process? i = some q) (hpid : p.pid = q.pid)
    (hppid : p.ppid = q.ppid) : Ruled { s with scheduler := s.scheduler.setProcess i (some p) } := by
  obtain ⟨hok,hlive⟩ := h.ok.update hq hpid hppid
  exact h.ids hok (sameIds_setProcess hq hpid hppid) hlive

theorem Created.rooted {c : ProcessRecord} (h : s.Ok) (hp : Created s p)
    (hc : s.scheduler.Has s.scheduler.current c) (h0 : s.scheduler.processQuantity ≠ 0) :
    p.ppid = c.pid ∧ p.ppid < p.pid := by
  have hppid := hp.ppid
  unfold Scheduler.getpid at hppid
  rw [if_neg h0,hc.2,Option.map_some] at hppid
  have hc' : p.ppid = c.pid := (Option.some.inj hppid).symm
  refine ⟨hc',?_⟩
  rw [hc',hp.pid]
  exact (h.pids _ c hc).2

/-- A new process is a child of the current one. -/
theorem Rooted.added (h : Rooted d) (ha : Added d p j d') {c : ProcessRecord} {k : ℤ}
    (hc : d.Has k c) (hp : p.ppid = c.pid) (hlt : p.ppid < p.pid) : Rooted d' := by
  intro i q hq
  rcases ha.has.mp hq with hq | ⟨rfl,rfl⟩
  · refine (h i q hq).imp_right (And.imp_right ?_)
    rintro ⟨k,x,hx,hpid⟩
    exact ⟨k,x,ha.has.mpr (Or.inl hx),hpid⟩
  · exact Or.inr ⟨hlt,k,c,ha.has.mpr (Or.inl hc),hp.symm⟩

theorem Ruled.sysRunProcess (h : s.Ruled) (hv : s.HasSlot) (hx : s.sysRunProcess memory a background = some s') :
    (background = false ∧ s.scheduler.processQuantity = maxProcesses ∧ s'.foreground = none) ∨
      s'.Ruled := by
  have h0 := h.quantity_ne
  obtain ⟨slots,hs⟩ := h.ok.queued
  obtain ⟨c,hc⟩ := hs.mem_iff.mp (hs.current_mem h0)
  obtain ⟨p,hp,d,hd,hx⟩ := sysRunProcess_cases h.ok hv hx
  obtain ⟨hppid,hlt⟩ := hp.rooted h.ok hc h0
  have hpos : 0 < p.pid := hp.pid ▸ h.ok.nextPid
  have hnext : p.pid < s.nextPid+1 := hp.pid ▸ Int.lt_succ _
  have hall : Ok ⟨d,s.foreground,s.nextPid+1⟩ ∧ Rooted d ∧ ∀ i q, s.scheduler.Has i q → d.Has i q := by
    rcases hd with ⟨-,rfl⟩ | ⟨-,j,hj⟩
    · exact ⟨h.ok.created,h.rooted,fun _ _ hq => hq⟩
    · exact ⟨h.ok.created.added hj hpos hnext (h.ok.absent hp.pid.ge),h.rooted.added hj hc hppid hlt,
        fun _ _ hq => hj.has.mpr (Or.inl hq)⟩
  obtain ⟨hok,hrooted,hhas⟩ := hall
  obtain ⟨k,f,hf,hfg⟩ := h.foreground
  rcases hx with ⟨-,rfl⟩ | ⟨hbg,d',hd',rfl⟩
  · exact Or.inr ⟨hok,hrooted,k,f,hhas k f hf,hfg⟩
  by_cases hq : s.scheduler.processQuantity = maxProcesses
  · exact Or.inl ⟨hbg,hq,if_pos hq⟩
  · rcases hd with ⟨hq',-⟩ | ⟨-,j,hj⟩
    · exact absurd hq' hq
    · obtain ⟨x,hx,hsim,-⟩ := hd'.has_of (hj.has.mpr (Or.inr ⟨rfl,rfl⟩))
      refine Or.inr ⟨(hok.resembles hd').foreground,hrooted.ids hd'.sameIds hd'.queue.live,j,x,hx,?_⟩
      rw [hsim.pid]
      exact if_neg hq

/-- In front of the table the new process is in the ring, in the foreground or not. -/
theorem Ruled.sysRunProcess_front (h : s.Ruled) (hv : ¬ s.HasSlot)
    (hx : s.sysRunProcess memory a background = some s') : ¬ s'.ForegroundLive := by
  obtain ⟨slots,hs⟩ := h.ok.queued
  have hcurrent := ((hs.live _).mp (hs.current_mem h.quantity_ne)).1
  simp only [Session.sysRunProcess,Option.bind_eq_bind,Option.bind_eq_some_iff] at hx
  obtain ⟨⟨p,s₁⟩,hc,hx⟩ := hx
  obtain ⟨-,rfl⟩ := createProcess_cases hc
  obtain ⟨h0,hq,hspace⟩ := h.ok.sentinel hv
  have hplaced : Placed s.scheduler p
    (Session.addProcess { s with nextPid := s.nextPid+1 } p).scheduler := addProcess_placed p h0 hq
  generalize Session.addProcess { s with nextPid := s.nextPid+1 } p = s₂ at hx hplaced
  have hsame : SameQueue s₂.scheduler s'.scheduler := by
    cases background with
    | true =>
      cases hx
      exact SameQueue.refl _
    | false =>
      obtain ⟨s₃,hs₃,hx⟩ := Option.bind_eq_some_iff.mp hx
      obtain ⟨d,hd,rfl⟩ := changeForegroundState_cases hs₃
      obtain ⟨index,-,rfl⟩ := Option.map_eq_some_iff.mp hx
      exact hd.queue
  rintro ⟨slots',-,-,hs',-⟩
  refine not_queued_of_front ?_ ?_ ⟨slots',hs'⟩
  · rw [hsame.quantity,hplaced.quantity]
    have hpos := hs.quantity
    omega
  · rw [hsame.link,hsame.current,(hplaced.next (hspace ▸ hcurrent.ne_front)).1]
    exact hspace

/-- Behind a kill the children of the process are its parent's, and the parent is still there. -/
theorem Rooted.removed (h : Rooted d) {x : Scheduler} {n : ℤ} (hp : d.Has r p)
    (hd : Resembles (adoptive p.pid p.ppid) d d') (hr : Removed d' n x r) (hi : SameIds d' x)
    (hpos : 0 < p.pid) : Rooted x := by
  -- whoever was there and is not the process itself still is
  have hstay : ∀ k y, d.Has k y → y.pid ≠ p.pid → ∃ z, x.Has k z ∧ z.pid = y.pid := by
    intro k y hy hne
    obtain ⟨y',hy',hsim,-⟩ := hd.has_of hy
    have hk : k ≠ r := by
      rintro rfl
      exact hne (congrArg ProcessRecord.pid (hy.eq hp))
    obtain ⟨z,hz⟩ := Option.isSome_iff_exists.mp ((hr.live k).mpr ⟨live_of_process hy'.2,hk⟩)
    obtain ⟨y'',hy'',hpid,-⟩ := hi k z ⟨hy.1,hz⟩
    obtain rfl : y' = y'' := hy'.eq hy''
    exact ⟨z,⟨hy.1,hz⟩,hpid.trans hsim.pid⟩
  intro i q hq
  obtain ⟨q',hq',hpid,hppid⟩ := hi i q hq
  obtain ⟨q₀,hq₀,hsim,hadopt⟩ := hd.has i q' hq'
  rw [hpid,hppid,hsim.pid,hadopt]
  unfold adoptive
  split
  · rename_i hchild
    obtain hroot | ⟨hlt,j,y,hy,hyp⟩ := h r p hp
    · exact Or.inl hroot
    · obtain hroot | ⟨hlt',-⟩ := h i q₀ hq₀
      · rw [← hchild,hroot] at hpos
        exact absurd hpos (by decide)
      · obtain ⟨z,hz,hzp⟩ := hstay j y hy (by rw [hyp]; exact hlt.ne)
        exact Or.inr ⟨hlt.trans (hchild ▸ hlt'),j,z,hz,hzp.trans hyp⟩
  · rename_i hchild
    refine (h i q₀ hq₀).imp_right (And.imp_right ?_)
    rintro ⟨j,y,hy,hyp⟩
    obtain ⟨z,hz,hzp⟩ := hstay j y hy (by rw [hyp]; exact hchild)
    exact ⟨j,z,hz,hzp.trans hyp⟩

/-- The switch behind a removal, where there is one. -/
theorem settle_cases {fg : Option ℤ} {n : ℤ} {t : Session} (h : settle (ending b,⟨d,fg,n⟩) = some t) :
    ∃ x, (if b then d.nextProcess else some d) = some x ∧ t = ⟨x,fg,n⟩ ∧ SameIds d x := by
  cases b with
  | true =>
    obtain ⟨x,hx,rfl⟩ := Option.map_eq_some_iff.mp h
    exact ⟨x,hx,rfl,nextProcess_ids hx⟩
  | false =>
    cases h
    exact ⟨d,rfl,rfl,SameIds.refl d⟩

/-- A kill of a process with a parent, or of one that is not in the foreground. -/
theorem Ruled.killed (h : s.Ruled) (hk : Killed s pid e s') :
    (s.foreground = some pid ∧ s.Rootless pid ∧ s'.foreground = none) ∨
      ((s.foreground = some pid → ¬ s.Rootless pid) ∧
        ∀ t, settle (e,s') = some t → t.Ruled) := by
  cases hk with
  | absent ha =>
    refine Or.inr ⟨fun _ ⟨i,p,hp,hpid,_⟩ => ha i p hp.1 hp.2 hpid,fun t ht => ?_⟩
    cases ht
    exact h
  | lost hp hpid hf ha =>
    rename_i r p d
    refine Or.inl ⟨hf,⟨r,p,hp,hpid,?_⟩,rfl⟩
    obtain hroot | ⟨-,j,q,hq,hqp⟩ := h.rooted r p hp
    · exact hroot
    · exact absurd hqp (ha j q hq.1 hq.2)
  | removed hp hpid hd hd' hf =>
    rename_i r p d d' b fg
    subst hpid
    obtain ⟨p',hp',hsim,-⟩ := hd.has_of hp
    have hpos : ∀ i q, s.scheduler.Has i q → 0 < q.pid := fun i q hq => (h.ok.pids i q hq).1
    refine Or.inr ⟨fun hfg hx => ?_,fun t ht => ?_⟩
    · obtain ⟨i,q,hq,hqp,hroot⟩ := hx
      obtain rfl : i = r := h.ok.distinct i r q p hq hp hqp
      obtain rfl : q = p := hq.eq hp
      rcases hf with ⟨hf,hne⟩ | ⟨-,hfg',j,y,hy,hyp⟩
      · exact hne (Option.some.inj (hf.symm.trans hfg))
      · have hy0 := hpos j y hy
        rw [hyp,hfg',hroot] at hy0
        exact absurd hy0 (by decide)
    · obtain ⟨x,hx,rfl,hix⟩ := settle_cases ht
      have hok : Ok ⟨d,some fg,s.nextPid⟩ := (h.ok.resembles hd).foreground
      have hrem := hd'.removed hp'.2 hok.unlocked hx
      have hids := hd'.sameIds.trans hix
      refine ⟨hok.removed hrem hids,h.rooted.removed hp hd hrem hids (hpos r p hp),?_⟩
      obtain ⟨k,y,hy,hyp,hkr⟩ : ∃ k y, s.scheduler.Has k y ∧ y.pid = fg ∧ k ≠ r := by
        rcases hf with ⟨hf,hne⟩ | ⟨-,hfg,j,y,hy,hyp⟩
        · obtain ⟨k,y,hy,hfy⟩ := h.foreground
          have hyp : y.pid = fg := Option.some.inj (hfy.symm.trans hf)
          refine ⟨k,y,hy,hyp,fun hkr => hne ?_⟩
          subst hkr
          rw [← hyp,hy.eq hp]
        · refine ⟨j,y,hy,hyp,fun hjr => ?_⟩
          subst hjr
          have hself : p.pid = p.ppid := (congrArg ProcessRecord.pid (hp.eq hy)).trans (hyp.trans hfg)
          obtain hroot | ⟨hlt,-⟩ := h.rooted j p hp
          · have h0 := hpos j p hp
            rw [hself,hroot] at h0
            exact absurd h0 (by decide)
          · exact absurd hself hlt.ne'
      obtain ⟨y',hy',hsimy,-⟩ := hd.has_of hy
      obtain ⟨z,hz⟩ := Option.isSome_iff_exists.mp ((hrem.live k).mpr ⟨live_of_process hy'.2,hkr⟩)
      obtain ⟨y'',hy'',hpid,-⟩ := hids k z ⟨hy.1,hz⟩
      obtain rfl : y' = y'' := hy'.eq hy''
      refine ⟨k,z,⟨hy.1,hz⟩,?_⟩
      rw [hpid,hsimy.pid,hyp]

/-! ### Runs -/

theorem not_live_of_none (h : s.foreground = none) : ¬ s.ForegroundLive := by
  rintro ⟨-,-,p,-,-,-,hf⟩
  rw [h] at hf
  cases hf

theorem settle_lost (h : s.foreground = none) (hs : settle (e,s) = some s') : s'.foreground = none := by
  unfold settle at hs
  split at hs
  · obtain ⟨d,-,rfl⟩ := Option.map_eq_some_iff.mp hs
    exact h
  · cases hs
    exact h

theorem Ruled.kill (h : s.Ruled) (hx : (s.killProcess pid).bind settle = some s') :
    (s'.foreground = none ∧ s.foreground = some pid ∧ s.Rootless pid) ∨
      (s'.Ruled ∧ (s.foreground = some pid → ¬ s.Rootless pid)) := by
  obtain ⟨⟨e,t⟩,hk,hx⟩ := Option.bind_eq_some_iff.mp hx
  obtain ⟨hf,hr,hn⟩ | ⟨hc,hr⟩ := h.killed (killProcess_cases h.ok hk)
  · exact Or.inl ⟨settle_lost hn hx,hf,hr⟩
  · exact Or.inr ⟨hr s' hx,hc⟩

theorem killForeground_eq (h : s.foreground = some pid) : s.killForeground = s.killProcess pid := by
  unfold killForeground
  rw [h,Option.bind_some]

theorem step_ruled (h : s.Ruled) (hc : s.Calm l) (hx : s.step l = some s') : s'.Ruled := by
  cases l with
  | sysRunProcess memory memoryBase background =>
    obtain ⟨hbg,hq,-⟩ | hr := h.sysRunProcess hc.1 hx
    · exact absurd hq (hc.2 hbg)
    · exact hr
  | killProcess pid =>
    obtain ⟨-,hf,hr⟩ | ⟨hr,-⟩ := h.kill hx
    · exact absurd hr (hc hf)
    · exact hr
  | killForeground =>
    obtain ⟨i,p,-,hf⟩ := h.foreground
    simp only [step,killForeground_eq hf] at hx
    obtain ⟨-,-,hr⟩ | ⟨hr,-⟩ := h.kill hx
    · exact absurd hr (hc p.pid hf)
    · exact hr
  | nextProcess => exact h.nextProcess hx
  | update i p =>
    obtain ⟨q,hq,hx⟩ := Option.bind_eq_some_iff.mp hx
    obtain ⟨hids,hx⟩ := Option.ite_none_right_eq_some.mp hx
    cases hx
    exact h.update hq hids.1 hids.2

theorem step_calm (h : s.Ruled) (hx : s.step l = some s') (hl : s'.ForegroundLive) : s.Calm l := by
  cases l with
  | sysRunProcess memory memoryBase background =>
    have hv : s.HasSlot := by
      by_contra hv
      exact h.sysRunProcess_front hv hx hl
    refine ⟨hv,fun hbg hq => ?_⟩
    subst hbg
    obtain ⟨p,-,d,-,⟨hbg,-⟩ | ⟨-,d',-,rfl⟩⟩ := sysRunProcess_cases h.ok hv hx
    · cases hbg
    · exact not_live_of_none (if_pos hq) hl
  | killProcess pid =>
    obtain ⟨hn,-⟩ | ⟨-,hc⟩ := h.kill hx
    · exact absurd hl (not_live_of_none hn)
    · exact hc
  | killForeground =>
    intro pid hf
    simp only [step,killForeground_eq hf] at hx
    obtain ⟨hn,-⟩ | ⟨-,hc⟩ := h.kill hx
    · exact absurd hl (not_live_of_none hn)
    · exact hc hf
  | nextProcess => trivial
  | update i p => trivial

def start : Session := ⟨initializeScheduler,none,1⟩

theorem start_ok : start.Ok := by
  obtain ⟨hq,hfull,hlock⟩ := initializeScheduler_ok
  have hnone : ∀ i p, ¬ start.scheduler.Has i p := fun i p hp => (by cases hp.2)
  exact ⟨hq.queued,by decide,fun _ => Or.inr (hq.space (by decide)),hfull,hlock,by decide,
    fun i p hp => absurd hp (hnone i p),fun i _ p _ hp => absurd hp (hnone i p)⟩

/-- The processes of `startSystem` are created before there is any other. -/
theorem startSystem_cases {init shell : ProcessRecord} {a b : ℕ}
    (hx : startSystem init shell a b = some s) : s.Ok ∧
      (∀ i p, s.scheduler.Has i p → ∃ n, Created ⟨start.scheduler,none,n⟩ p) ∧
        ∃ i p, s.scheduler.Has i p ∧ s.foreground = some p.pid := by
  simp only [startSystem,Option.bind_eq_bind,Option.bind_eq_some_iff] at hx
  obtain ⟨⟨p,s₁⟩,hs₁,⟨q,s₂⟩,hs₂,hx⟩ := hx
  obtain ⟨hp,rfl⟩ := createProcess_cases (s := start) hs₁
  obtain ⟨hq,rfl⟩ := createProcess_cases hs₂
  have hok : Ok ⟨start.scheduler,none,3⟩ := start_ok.created.created
  have hp1 : p.pid = 1 := hp.pid
  have hq2 : q.pid = 2 := hq.pid
  have hempty : ∀ pid, start.scheduler.Absent pid := fun pid i x _ hx => (by cases hx)
  obtain ⟨hfull,-⟩ | ⟨-,j,d,hj,hs₃⟩ := addProcess_cases p hok (fun h0 => absurd rfl h0)
  · exact absurd hfull (by decide)
  have hok₃ := hok.added hj (by rw [hp1]; decide) (by rw [hp1]; decide) (hempty _)
  have hquantity : d.processQuantity = 1 := hj.quantity
  have habsent : d.Absent q.pid := by
    intro i x ht hx
    rcases hj.has.mp ⟨ht,hx⟩ with hx | ⟨-,rfl⟩
    · exact hempty _ i x hx.1 hx.2
    · rw [hp1,hq2]
      decide
  obtain ⟨hfull,-⟩ | ⟨-,k,d',hk,hs₄⟩ := addProcess_cases q hok₃ (fun _ => hj.slot)
  · rw [hquantity] at hfull
    exact absurd hfull (by decide)
  have hx : Session.setForeground ⟨d',none,3⟩ q.pid = some s := by
    change ((Session.addProcess ⟨start.scheduler,none,3⟩ p).addProcess q).setForeground q.pid = _ at hx
    rw [hs₃] at hx
    exact hs₄ ▸ hx
  have hok₄ := hok₃.added hk (by rw [hq2]; decide) (hq2.trans_lt (by decide : (2 : ℤ) < 3)) habsent
  have hshell : d'.Has k q := hk.has.mpr (Or.inr ⟨rfl,rfl⟩)
  obtain ⟨ha,-⟩ | ⟨i,x,hi,hpid,rfl⟩ := setForeground_cases hok₄ hx
  · exact absurd rfl (ha k q hshell.1 hshell.2)
  refine ⟨hok₄.foreground,fun i x hx => ?_,i,x,hi,by rw [hpid]⟩
  rcases hk.has.mp hx with hx | ⟨-,rfl⟩
  · rcases hj.has.mp hx with hx | ⟨-,rfl⟩
    · cases hx.2
    · exact ⟨1,hp⟩
  · exact ⟨2,hq⟩

/-- The shell is in the foreground, and neither it nor the first process has a parent. -/
theorem startSystem_ruled {init shell : ProcessRecord} {a b : ℕ}
    (hx : startSystem init shell a b = some s) : s.Ruled := by
  obtain ⟨hok,hcreated,hforeground⟩ := startSystem_cases hx
  refine ⟨hok,fun i p hp => Or.inl ?_,hforeground⟩
  obtain ⟨n,hn⟩ := hcreated i p hp
  exact (Option.some.inj hn.ppid).symm

variable {s₀ : Session} {init shell : ProcessRecord} {b : ℕ} {ls : List SessionStep}

/-- The foreground is in the ring throughout a run exactly as long as no process is killed
there that has no parent, and none is created there in a full table. -/
theorem foreground_live (h₀ : startSystem init shell a b = some s₀) (h : run step s₀ ls = some s) :
    Always step ForegroundLive s₀ ls ↔ Along step Calm s₀ ls :=
  always_iff_along (fun _ => Ruled.live) (fun _ _ _ => step_ruled) (fun _ _ _ => step_calm)
    (startSystem_ruled h₀) h

/-- The first process is killed, and the shell stays in front. -/
theorem foreground_live_shell : ∃ s₀, startSystem (sample 0) (sample 0) 0 0 = some s₀ ∧
    Always step ForegroundLive s₀ [.killProcess 1] := by
  have h₀ : startSystem (sample 0) (sample 0) 0 0 = some _ := rfl
  refine ⟨_,rfl,(foreground_live h₀ rfl).mpr ?_⟩
  exact ⟨fun hf => absurd hf (by decide),fun _ _ => trivial⟩

/-- Ctrl-C for the shell itself. -/
theorem foreground_live_fails : ∃ s₀, startSystem (sample 0) (sample 0) 0 0 = some s₀ ∧
    ¬ Always step ForegroundLive s₀ [.killForeground] :=
  ⟨_,rfl,fun h => not_live_of_none rfl (h [.killForeground] _ (List.prefix_refl _) rfl)⟩

end Session
end ComplexOS
