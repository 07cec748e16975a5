import ComplexOS.Scheduler.ForegroundRuns
import ComplexOS.Scheduler.ProcessCreation

/-! # Creations in a running system

Between two calls the session goes on, and everybody asks for blocks and gives them back.
A call adds its process with all its blocks only if every request is answered and the ring
has a place. Whatever else happens, the blocks it has had are not given back.
-/
namespace ComplexOS
open BuddyAllocator Call Runs

namespace Session
open Scheduler

structure Tracked (s : Session) : Prop where
  ok : s.Ok
  foreground : ∀ f, s.foreground = some f → f < s.nextPid

variable {s s' : Session} {memory : ProcessRecord} {a : ℕ} {background : Bool} {pid : ℤ} {e : Ending}

theorem Tracked.sysRunProcess (h : s.Tracked) (hv : s.HasSlot)
    (hx : s.sysRunProcess memory a background = some s') : s'.Tracked := by
  refine ⟨h.ok.sysRunProcess hv hx,fun f hf => ?_⟩
  obtain ⟨p,hp,d,-,⟨-,rfl⟩ | ⟨-,d',-,rfl⟩⟩ := sysRunProcess_cases h.ok hv hx
  · exact (h.foreground f hf).trans (Int.lt_succ _)
  · change (if _ then none else some p.pid) = some f at hf
    split at hf
    · cases hf
    · cases hf
      exact hp.pid ▸ Int.lt_succ _

theorem Tracked.killProcess (h : s.Tracked) (hx : (s.killProcess pid).bind settle = some s') :
    s'.Tracked := by
  obtain ⟨⟨e,t⟩,hk,hs⟩ := Option.bind_eq_some_iff.mp hx
  cases killProcess_cases h.ok hk with
  | absent ha =>
    cases hs
    exact h
  | lost hp hpid hf ha =>
    have hok := killProcess_lost h.ok hk
    cases hs
    exact ⟨hok,fun f hf => by cases hf⟩
  | removed hp hpid hd hd' hf =>
    rename_i r p d d' b fg
    subst hpid
    obtain ⟨p',hp',hsim,-⟩ := hd.has_of hp
    obtain ⟨x,hnext,rfl,hids⟩ := settle_cases hs
    have hok : Ok ⟨d,some fg,s.nextPid⟩ := (h.ok.resembles hd).foreground
    have hrem := hd'.removed hp'.2 hok.unlocked hnext
    refine ⟨hok.removed hrem (hd'.sameIds.trans hids),fun f hfg => ?_⟩
    cases hfg
    rcases hf with ⟨hf,-⟩ | ⟨-,-,i,q,hq,hqp⟩
    · exact h.foreground fg hf
    · exact hqp ▸ (h.ok.pids i q hq).2

def Kept (s : Session) : SessionStep → Prop
  | .sysRunProcess _ _ _ => s.HasSlot
  | _ => True

instance : ∀ l, Decidable (s.Kept l)
  | .sysRunProcess _ _ _ => inferInstanceAs (Decidable s.HasSlot)
  | .killProcess _ => isTrue trivial
  | .killForeground => isTrue trivial
  | .nextProcess => isTrue trivial
  | .update _ _ => isTrue trivial

theorem Tracked.step {l : SessionStep} (h : s.Tracked) (h0 : s.scheduler.processQuantity ≠ 0)
    (hc : s.Kept l) (hx : s.step l = some s') : s'.Tracked := by
  cases l with
  | sysRunProcess memory memoryBase background => exact h.sysRunProcess hc hx
  | killProcess pid => exact h.killProcess hx
  | killForeground =>
    obtain ⟨⟨e,t⟩,hk,hx⟩ := Option.bind_eq_some_iff.mp hx
    obtain ⟨f,-,hk⟩ := Option.bind_eq_some_iff.mp hk
    exact h.killProcess (Option.bind_eq_some_iff.mpr ⟨_,hk,hx⟩)
  | nextProcess =>
    obtain ⟨d,hd,rfl⟩ := Option.map_eq_some_iff.mp hx
    exact ⟨(h.ok.nextProcess h0 hd).1,h.foreground⟩
  | update i p =>
    obtain ⟨q,hq,hx⟩ := Option.bind_eq_some_iff.mp hx
    obtain ⟨hids,hx⟩ := Option.ite_none_right_eq_some.mp hx
    cases hx
    exact ⟨(h.ok.update hq hids.1 hids.2).1,h.foreground⟩

theorem Tracked.created (h : s.Tracked) : Tracked { s with nextPid := s.nextPid+1 } :=
  ⟨h.ok.created,fun f hf => (h.foreground f hf).trans (Int.lt_succ _)⟩

end Session

inductive LaunchStep
  | sysRunProcess (r : RunRequest)
  | session (l : SessionStep)
  | request (r : Request)

def RunRequest.program (r : RunRequest) (copy : ArgumentArray) : Program :=
  ⟨if (copy.entries 0).text.length < maxName then (copy.entries 0).text else [],(-1,-1),
    r.entryPoint,toInt r.argc,copy⟩

namespace Launch
open Scheduler Session
variable {l l' l₁ : Launch} {r : RunRequest} {background : ℕ} {p : ProcessRecord} {stack : ℕ} {ret : ℤ}
  {program : Program}

def addresses (l : Launch) : List ℕ := l.memory.live.map Block.address

/-- The new process is in the ring with the program, the arguments and the blocks of the
call, and it is in front if the call says so. -/
structure Added (l : Launch) (r : RunRequest) (ret : ℤ) (l' : Launch) (p : ProcessRecord) (stack : ℕ)
    (copy : ArgumentArray) : Prop where
  returned : ret = p.pid
  created : Created l.session p
  ready : (p.threads 0).thread = some ⟨.ready,notWaiting,stack⟩
  entered : Entered l.session r.background p l'.session
  program : l'.programs p.pid = some (r.program copy)
  strings : ∀ k : ℕ, (k : ℤ) < toInt r.argc → (copy.entries k).text = (r.argv.entries k).text
  blocks : l'.addresses.Perm (argumentBlocks (toInt r.argc) copy++[p.address,stack]++l.addresses)

structure Unchanged (l l' : Launch) : Prop where
  processes : l'.session.scheduler.processes = l.session.scheduler.processes
  current : l'.session.scheduler.current = l.session.scheduler.current
  quantity : l'.session.scheduler.processQuantity = l.session.scheduler.processQuantity
  foreground : l'.session.foreground = l.session.foreground
  blocks : l'.addresses.Perm l.addresses

/-- The call comes back, either with the process or with an error and without a trace. -/
def AllOrNothing (l : Launch) (r : RunRequest) : Prop := ∃ ret l', sysRunProcess r l = .ok (ret,l') ∧
  ((0 ≤ ret ∧ ∃ p stack copy, Added l r ret l' p stack copy) ∨ (ret < 0 ∧ Unchanged l l'))

/-- There is a block for everything, a place in the ring, a pid, and for a process in front
the one that has been there. -/
structure Provided (l : Launch) (r : RunRequest) : Prop where
  room : hasRoom r.pages l.memory.heap = true
  vacant : Vacant l.session
  pid : l.session.nextPid < maxInt
  foreground : r.background = 0 → l.session.ForegroundThere

structure Ok (l : Launch) : Prop where
  session : l.session.Tracked
  memory : RunOk l.memory

/-! ### The ring -/

theorem Ok.foreground_ne (h : l.Ok) (hp : Created l.session p) : l.session.foreground ≠ some p.pid :=
  fun hf => absurd (h.session.foreground p.pid hf) (by rw [hp.pid]; exact lt_irrefl _)

/-- The process is not the one in front, so the one in front is where it has been. -/
theorem foregroundThere_added {s : Session} {d : Scheduler} {j n : ℤ}
    (ha : Scheduler.Added s.scheduler p j d) (hf : s.foreground ≠ some p.pid) :
    ForegroundThere ⟨d,s.foreground,n⟩ ↔ s.ForegroundThere := by
  constructor
  · rintro ⟨i,q,hq,hfg,ht⟩
    rcases ha.has.mp hq with hq | ⟨-,rfl⟩
    · exact ⟨i,q,hq,hfg,ht⟩
    · exact absurd hfg hf
  · rintro ⟨i,q,hq,hfg,ht⟩
    exact ⟨i,q,ha.has.mpr (Or.inl hq),hfg,ht⟩

theorem Ok.enterProcess (h : l.Ok) (hp : Prepared l program p stack l₁) (hv : Vacant l.session)
    (hf : background = 0 → l.session.ForegroundThere) : ∃ s,
      Launch.enterProcess background p l₁ = .ok (p.pid,{ l₁ with session := s }) ∧
        Entered l.session background p s := by
  obtain ⟨hcreated,hs₁⟩ := hp.created
  have hok := h.session.created.ok
  obtain ⟨hfull,-⟩ | ⟨-,j,d,hj,hadd⟩ := addProcess_cases p hok (fun _ _ => hv.2)
  · exact absurd hfull hv.1
  rw [← hs₁] at hadd
  have hret : (l₁.session.scheduler.addProcess p).2 = p.pid := by
    unfold Scheduler.addProcess
    rw [hs₁,if_pos hv.1]
  have hlive : ∀ i, d.Live i ↔ l.session.scheduler.Live i ∨ i = j := by
    intro i
    unfold Live
    rw [hj.process]
    split
    · rename_i hi
      simp [hi]
    · rename_i hi
      simp [hi]
  have hhas : d.Has j p := hj.has.mpr (Or.inr ⟨rfl,rfl⟩)
  by_cases hb : background ≠ 0
  · refine ⟨⟨d,l.session.foreground,l.session.nextPid+1⟩,enterProcess_ok.mpr ⟨hret.symm,?_⟩,
      ⟨j,hj.free,hhas,hlive⟩,hj.queued,(if_pos hb).symm⟩
    rw [if_pos hb,hadd,hs₁]
  have hok' : Session.Ok ⟨d,l.session.foreground,l.session.nextPid+1⟩ :=
    hok.added hj (hcreated.pid ▸ h.session.ok.nextPid) (hcreated.pid ▸ Int.lt_succ _)
      (h.session.ok.absent hcreated.pid.ge)
  have hne := h.foreground_ne hcreated
  obtain ⟨s,hx⟩ : ∃ s, Session.changeForegroundState _ .sleeping = some s :=
    hok'.changeForegroundState.mpr ((foregroundThere_added hj hne).mpr (hf (not_not.mp hb)))
  have hhas' := hok'.changeForegroundState_has hx hhas hne
  obtain ⟨d',hd',rfl⟩ := changeForegroundState_cases hx
  obtain ⟨slots',hslots'⟩ := hj.queued
  refine ⟨⟨d',some p.pid,l.session.nextPid+1⟩,enterProcess_ok.mpr ⟨hret.symm,?_⟩,
    ⟨j,hj.free,hhas',fun i => ?_⟩,⟨slots',hd'.queued hslots'⟩,(if_neg hb).symm⟩
  · rw [if_neg hb,hadd,hs₁]
    exact ⟨_,_,hx,setForeground_has (hok'.resembles hd') hhas',rfl⟩
  · exact (hd'.queue.live i).trans (hlive i)

/-- A process in front of the table is in no slot of it. -/
theorem Ok.enterProcess_front (h : l.Ok) (hp : Prepared l program p stack l₁)
    (hv : ¬ l.session.HasSlot) (hx : Launch.enterProcess background p l₁ = .ok (ret,l')) :
    ∃ d, (∀ i, d.process? i = if i = -1 then some p else l.session.scheduler.process? i) ∧
      Resembles ProcessRecord.ppid d l'.session.scheduler := by
  obtain ⟨-,hs₁⟩ := hp.created
  obtain ⟨h0,hq,hspace⟩ := h.session.ok.sentinel hv
  have hplaced : Placed l.session.scheduler p (l₁.session.addProcess p).scheduler := by
    rw [hs₁]
    exact addProcess_placed p h0 hq
  obtain ⟨-,hx⟩ := enterProcess_ok.mp hx
  refine ⟨_,hspace ▸ hplaced.process,?_⟩
  split at hx
  · rw [hx]
    exact Resembles.refl _
  · obtain ⟨s₁,s',hs,hf,rfl⟩ := hx
    obtain ⟨d,hd,rfl⟩ := changeForegroundState_cases hs
    obtain ⟨index,-,rfl⟩ := Option.map_eq_some_iff.mp hf
    exact hd

/-- The place is needed, and so is the process in front. -/
theorem Ok.enterProcess_provided (h : l.Ok) (h0 : l.session.scheduler.processQuantity ≠ 0)
    (hv : l.session.HasSlot) (hp : Prepared l program p stack l₁)
    (hx : Launch.enterProcess background p l₁ = .ok (ret,l')) (hret : 0 ≤ ret) :
    Vacant l.session ∧ (background = 0 → l.session.ForegroundThere) := by
  obtain ⟨hcreated,hs₁⟩ := hp.created
  obtain ⟨rfl,hcall⟩ := enterProcess_ok.mp hx
  have hok := h.session.created.ok
  rw [hs₁] at hret hcall
  obtain ⟨hfull,-⟩ | ⟨hq,j,d,hj,hadd⟩ := addProcess_cases p hok hv
  · rw [addProcess_full hfull] at hret
    cases hret
  refine ⟨⟨hq,hv h0 hq⟩,fun hb => ?_⟩
  · rw [if_neg (not_not.mpr hb),hadd] at hcall
    obtain ⟨s₁,s',hs₁,-,-⟩ := hcall
    have hok' : Session.Ok { l.session with scheduler := d, nextPid := l.session.nextPid+1 } :=
      hok.added hj (hcreated.pid ▸ h.session.ok.nextPid) (hcreated.pid ▸ Int.lt_succ _)
        (h.session.ok.absent hcreated.pid.ge)
    exact (foregroundThere_added hj (h.foreground_ne hcreated)).mp
      (hok'.changeForegroundState.mp ⟨s₁,hs₁⟩)

/-! ### The whole call -/

structure BackedUp (l : Launch) (r : RunRequest) (copy : ArgumentArray) (m : RunState) : Prop where
  ok : RunOk m
  covered : ∀ b ∈ m.live,
    copy.address ≠ null ∧ b.address ∈ argumentBlocks (toInt r.argc) copy ∨ b ∈ l.memory.live
  cases : Short (argumentPages (toInt r.argc) r.argv) l.memory m ∨
    Obtained (argumentPages (toInt r.argc) r.argv) (argumentBlocks (toInt r.argc) copy) l.memory m ∧
      ∀ k : ℕ, (k : ℤ) < toInt r.argc → (copy.entries k).text = (r.argv.entries k).text

theorem length_argumentBlocks (argc : ℤ) (argv copy : ArgumentArray) :
    (argumentBlocks argc copy).length = (argumentPages argc argv).length := by
  unfold argumentBlocks argumentPages
  split
  · simp [stringPages]
  · rfl

theorem Ok.sysRunProcess_eq (h : l.Ok) (r : RunRequest) : ∃ copy m, BackedUp l r copy m ∧
    sysRunProcess r l = (createProcess r.entryPoint (toInt r.argc) copy (copy.entries 0).text
      r.record >>= Launch.enterProcess r.background) { l with memory := m } := by
  obtain ⟨copy,m,he,hcover,hcase⟩ :=
    RunState.backupArguments_cases (toInt r.argc) r.argv r.page h.memory
  refine ⟨copy,m,⟨?_,hcover,hcase.imp_right (And.imp_right And.right)⟩,?_⟩
  · obtain hshort | ⟨hall,-⟩ := hcase
    · exact hshort.ok
    · exact hall.ok
  · apply bind_of_ok
    apply partly_ok.mpr
    simp [he]

/-- A call that comes back has got a record and a stack. -/
theorem Ok.sysRunProcess_ok (h : l.Ok) (hx : sysRunProcess r l = .ok (ret,l')) :
    ∃ copy m p stack l₁, BackedUp l r copy m ∧
      Prepared { l with memory := m } (r.program copy) p stack l₁ ∧
        Launch.enterProcess r.background p l₁ = .ok (ret,l') := by
  obtain ⟨copy,m,hback,heq⟩ := h.sysRunProcess_eq r
  rw [heq] at hx
  obtain ⟨p,l₁,hc,hx⟩ := bind_ok.mp hx
  obtain ⟨e,-,-,he⟩ | ⟨-,e,he⟩ | ⟨-,p',stack,l₂,hp,he⟩ := createProcess_cases
    (l := { l with memory := m }) r.entryPoint (toInt r.argc) copy (copy.entries 0).text r.record
    hback.ok h.session.ok
  · rw [he] at hc
    cases hc
  · rw [he] at hc
    cases hc
  · rw [he] at hc
    cases hc
    exact ⟨copy,m,p,stack,l₁,hback,hp,hx⟩

theorem enterProcess_memory (hx : Launch.enterProcess background p l = .ok (ret,l')) :
    l'.memory = l.memory ∧ l'.programs = l.programs := by
  obtain ⟨-,hx⟩ := enterProcess_ok.mp hx
  split at hx
  · rw [hx]
    exact ⟨rfl,rfl⟩
  · obtain ⟨s₁,s',-,-,rfl⟩ := hx
    exact ⟨rfl,rfl⟩

/-- Every block that has been asked for is out when the call comes back, or one is missing. -/
theorem BackedUp.obtained {copy : ArgumentArray} {m : RunState} (hb : BackedUp l r copy m)
    (hp : Prepared { l with memory := m } program p stack l₁) :
    Short r.pages l.memory l₁.memory ∨ Obtained r.pages
      (argumentBlocks (toInt r.argc) copy++[p.address,stack]) l.memory l₁.memory :=
  hb.cases.imp (fun hshort => hshort.obtained hp.blocks) (fun hall => hall.1.append hp.blocks)

theorem addresses_obtained {qs as : List ℕ} (h : Obtained qs as l.memory l'.memory) :
    l'.addresses.Perm (as++l.addresses) := by
  obtain ⟨news,hlive,hnews⟩ := h.blocks
  unfold addresses
  rw [hlive,List.map_append,hnews]
  exact (List.reverse_perm as).append_right _

theorem Ok.provided (h : l.Ok) (h0 : l.session.scheduler.processQuantity ≠ 0)
    (ha : AllOrNothing l r) : Provided l r := by
  obtain ⟨ret,l',hx,hcase⟩ := ha
  obtain ⟨copy,m,p,stack,l₁,hback,hp,hx⟩ := h.sysRunProcess_ok hx
  have hm := (enterProcess_memory hx).1
  have hobtained := hback.obtained hp
  rw [← hm] at hobtained
  -- the record and the stack are never given back
  have hgrown : l.addresses.length+2 ≤ l'.addresses.length := by
    obtain ⟨news,hlive,hlen⟩ := hp.blocks.count
    have hold : l.memory.live.length ≤ m.live.length := by
      obtain hshort | ⟨hall,-⟩ := hback.cases
      · obtain ⟨olds,holds,-⟩ := hshort.blocks
        rw [holds,List.length_append]
        exact Nat.le_add_left _ _
      · obtain ⟨olds,holds,-⟩ := hall.blocks
        rw [holds,List.length_append]
        exact Nat.le_add_left _ _
    have htwo : news.length = 2 := hlen
    unfold addresses
    rw [List.length_map,List.length_map,hm,hlive,List.length_append]
    simp only at *
    omega
  obtain ⟨hret,p',stack',copy',hadded⟩ | ⟨-,hsame⟩ := hcase
  · have hnext : l.session.nextPid < maxInt := hp.pid
    have hok : Ok { l with memory := m } := ⟨h.session,hback.ok⟩
    have hv : l.session.HasSlot := by
      by_contra hv
      obtain ⟨d,hd,hres⟩ := hok.enterProcess_front hp hv hx
      obtain ⟨j,-,hj,hlive⟩ := hadded.entered.slot
      have hfront : d.Live (-1) := by
        rw [Live,hd,if_pos rfl]
        rfl
      rcases (hlive _).mp ((hres.queue.live _).mpr hfront) with hold | he
      · exact h.session.ok.front hold
      · exact hj.1.ne_front he.symm
    obtain ⟨hvacant,hforeground⟩ := hok.enterProcess_provided h0 hv hp hx hret
    refine ⟨?_,hvacant,hnext,hforeground⟩
    obtain hshort | hall := hobtained
    · obtain ⟨news,hlive,hlt⟩ := hshort.blocks
      have hlen := hadded.blocks.length_eq
      unfold addresses at hlen
      rw [hlive] at hlen
      simp only [List.length_map,List.length_append,List.length_cons,List.length_nil,
        length_argumentBlocks _ r.argv] at hlen
      unfold RunRequest.pages processPages at hlt
      simp only [List.length_append,List.length_cons,List.length_nil] at hlt
      omega
    · exact hall.hasRoom
  · have hlen := hsame.blocks.length_eq
    omega

theorem Ok.adds (h : l.Ok) (hprov : Provided l r) : ∃ ret l', sysRunProcess r l = .ok (ret,l') ∧
    0 ≤ ret ∧ ∃ p stack copy, Added l r ret l' p stack copy := by
  obtain ⟨copy,m,hback,heq⟩ := h.sysRunProcess_eq r
  have hroom := hprov.room
  have hok : Ok { l with memory := m } := ⟨h.session,hback.ok⟩
  obtain hshort | ⟨hall,hstrings⟩ := hback.cases
  · have hnone : hasRoom r.pages l.memory.heap = false := hshort.append.hasRoom
    rw [hnone] at hroom
    cases hroom
  obtain ⟨e,m',hshort,-⟩ | ⟨hpid,-⟩ | ⟨-,p,stack,l₁,hp,hc⟩ := createProcess_cases
    (l := { l with memory := m }) r.entryPoint (toInt r.argc) copy (copy.entries 0).text r.record
    hback.ok h.session.ok
  · have hnone : hasRoom r.pages l.memory.heap = false := (hall.short hshort).hasRoom
    rw [hnone] at hroom
    cases hroom
  · exact absurd hprov.pid hpid
  · obtain ⟨s,hx,hentered⟩ := hok.enterProcess hp hprov.vacant hprov.foreground
    have hcreated := hp.created.1
    refine ⟨p.pid,{ l₁ with session := s },?_,?_,p,stack,copy,⟨rfl,hcreated,hp.ready,hentered,
      ?_,hstrings,addresses_obtained (hall.append hp.blocks)⟩⟩
    · rw [heq,bind_of_ok hc]
      exact hx
    · rw [hcreated.pid]
      exact h.session.ok.nextPid.le
    · rw [hp.programs,Function.update_self]
      rfl

/-! ### Runs -/

instance : ∀ q : Request, Decidable q.Valid
  | .allocatePages q => inferInstanceAs (Decidable (1 ≤ q ∧ q ≤ pageQuantity))
  | .freeMemory _ => inferInstanceAs (Decidable (_ ∧ _))

/-- Nothing is done where no process runs, and nothing follows a write in front of the table. -/
def step (l : Launch) : LaunchStep → Option Launch
  | .sysRunProcess r =>
    if l.session.scheduler.processQuantity ≠ 0 ∧ l.session.HasSlot then
      (sysRunProcess r l).toOption.map Prod.snd
    else none
  | .session x =>
    if l.session.scheduler.processQuantity ≠ 0 ∧ l.session.Kept x then
      (l.session.step x).map (fun s => { l with session := s })
    else none
  | .request q => if q.Valid then (serve l.memory q).map (fun m => { l with memory := m }) else none

/-- The blocks of the first processes are requests, too. -/
def start (s : Session) : Launch := ⟨s,initialRun,fun _ => none⟩

theorem Ok.sysRunProcess (h : l.Ok) (hv : l.session.HasSlot)
    (hx : Launch.sysRunProcess r l = .ok (ret,l')) : l'.Ok := by
  obtain ⟨copy,m,p,stack,l₁,hback,hp,hx⟩ := h.sysRunProcess_ok hx
  obtain ⟨memory,hs⟩ := hp.session hx
  refine ⟨h.session.sysRunProcess hv hs,?_⟩
  rw [(enterProcess_memory hx).1]
  exact hp.blocks.ok

theorem step_ok {x : LaunchStep} (h : l.Ok) (hx : l.step x = some l') : l'.Ok := by
  cases x with
  | sysRunProcess r =>
    obtain ⟨⟨-,hv⟩,hx⟩ := Option.ite_none_right_eq_some.mp hx
    obtain ⟨⟨ret,t⟩,hr,rfl⟩ := Option.map_eq_some_iff.mp hx
    exact h.sysRunProcess hv (ok_of_toOption hr)
  | session x =>
    obtain ⟨⟨h0,hc⟩,hx⟩ := Option.ite_none_right_eq_some.mp hx
    obtain ⟨s,hs,rfl⟩ := Option.map_eq_some_iff.mp hx
    exact ⟨h.session.step h0 hc hs,h.memory⟩
  | request q =>
    obtain ⟨hq,hx⟩ := Option.ite_none_right_eq_some.mp hx
    obtain ⟨m,hm,rfl⟩ := Option.map_eq_some_iff.mp hx
    obtain ⟨m',hm',hok⟩ := serve_ok h.memory hq
    obtain rfl := Option.some.inj (hm.symm.trans hm')
    exact ⟨h.session,hok⟩

theorem start_ok {s₀ : Session} {init shell : ProcessRecord} {a b : ℕ}
    (h₀ : startSystem init shell a b = some s₀) : (start s₀).Ok := by
  have hruled := startSystem_ruled h₀
  refine ⟨⟨hruled.ok,fun f hf => ?_⟩,initialRun_ok⟩
  obtain ⟨i,p,hp,hfg⟩ := hruled.foreground
  rw [Option.some.inj (hf.symm.trans hfg)]
  exact (hruled.ok.pids i p hp).2

variable {s₀ : Session} {init shell : ProcessRecord} {a b : ℕ} {ls : List LaunchStep}

/-- A process is created with all that belongs to it exactly when there is a block for each
of its requests, a free slot that the ring knows of, a pid, and, for a start in front, a
process in front to be put to sleep. Otherwise the call leaves blocks behind, or a process
without its arguments, or it does not come back. -/
theorem process_creation (h₀ : startSystem init shell a b = some s₀)
    (h : run step (start s₀) ls = some l) (h0 : l.session.scheduler.processQuantity ≠ 0) :
    AllOrNothing l r ↔ Provided l r := by
  have hok : l.Ok := invariant (fun _ _ _ hs hx => step_ok hs hx) (start_ok h₀) h
  refine ⟨hok.provided h0,fun hprov => ?_⟩
  obtain ⟨ret,l',hx,hret,ha⟩ := hok.adds hprov
  exact ⟨ret,l',hx,Or.inl ⟨hret,ha⟩⟩

def plainStart : RunRequest := ⟨0,0,⟨0,fun _ => ⟨0,[]⟩⟩,1,fun _ => ⟨0,[]⟩,sample 0⟩

/-- `echo hi`, started in the background. -/
def echoStart : RunRequest :=
  { plainStart with
    argc := 2
    argv := ⟨4096,fun i => if i = 0 then ⟨4112,[101,99,104,111]⟩ else ⟨4117,[104,105]⟩⟩ }

theorem process_creation_echo : ∃ s₀, startSystem (sample 0) (sample 0) 0 0 = some s₀ ∧
    s₀.scheduler.processQuantity ≠ 0 ∧ AllOrNothing (start s₀) echoStart := by
  have h₀ : startSystem (sample 0) (sample 0) 0 0 = some _ := rfl
  refine ⟨_,rfl,by decide,(process_creation h₀ (run_nil _) (by decide)).mpr ⟨?_,?_,?_,?_⟩⟩
  · decide +kernel
  · exact ⟨by decide,by decide⟩
  · decide
  · intro hb
    cases hb

/-- The requests that follow see the heap these leave behind. -/
theorem run_requests (qs : List ℕ) (hq : ∀ q ∈ qs, 1 ≤ q ∧ q ≤ pageQuantity) (h : RunOk l.memory)
    (hroom : hasRoom qs l.memory.heap = true) :
    ∃ m, run step l (qs.map (fun q => .request (.allocatePages q))) = some { l with memory := m } ∧
      ∀ rest, hasRoom (qs++rest) l.memory.heap = hasRoom rest m.heap := by
  induction qs generalizing l with
  | nil => exact ⟨l.memory,rfl,fun _ => rfl⟩
  | cons q qs ih =>
    have hvalid : Request.Valid (.allocatePages q) := hq q List.mem_cons_self
    obtain ⟨a,m,he,hcase⟩ := RunState.allocatePages_cases h q
    obtain ⟨-,hshort⟩ | ⟨-,hone⟩ := hcase
    · have hnone : hasRoom (q::qs) l.memory.heap = false := hshort.append.hasRoom
      rw [hnone] at hroom
      cases hroom
    have hserve : serve l.memory (.allocatePages q) = some m := by
      obtain ⟨x,-,hx⟩ := Option.bind_eq_some_iff.mp he
      obtain ⟨m',hm',hx⟩ := Option.map_eq_some_iff.mp hx
      obtain ⟨-,rfl⟩ := Prod.mk.inj hx
      exact hm'
    have hstep : l.step (.request (.allocatePages q)) = some { l with memory := m } := by
      simp [step,hvalid,hserve]
    have hall := hone.room qs
    have hrest : hasRoom qs m.heap = true := hall.symm.trans hroom
    obtain ⟨m',hrun,hx⟩ := ih (l := { l with memory := m })
      (fun q' hq' => hq q' (List.mem_cons_of_mem _ hq')) hone.ok hrest
    exact ⟨m',run_cons.mpr ⟨_,hstep,hrun⟩,fun rest => (hone.room (qs++rest)).trans (hx rest)⟩

/-- With every page given away, the record of a new process is written through NULL. -/
theorem process_creation_fails : ∃ s₀ l, startSystem (sample 0) (sample 0) 0 0 = some s₀ ∧
    run step (start s₀) ([1,2,1,2,1024,512,256,128,64,32,16,8,2].map
      (fun q => .request (.allocatePages q))) = some l ∧
      l.session.scheduler.processQuantity ≠ 0 ∧ ¬ AllOrNothing l plainStart := by
  obtain ⟨s₀,h₀,h0⟩ : ∃ s₀, startSystem (sample 0) (sample 0) 0 0 = some s₀ ∧
      s₀.scheduler.processQuantity ≠ 0 := ⟨_,rfl,by decide⟩
  have hok := start_ok h₀
  have hall : hasRoom [1,2,1,2,1024,512,256,128,64,32,16,8,2] initializeHeap = true := by
    decide +kernel
  obtain ⟨m,hrun,hrest⟩ := run_requests (l := start s₀) [1,2,1,2,1024,512,256,128,64,32,16,8,2]
    (by decide) hok.memory hall
  have hok' := invariant (fun _ _ _ hs hx => step_ok hs hx) hok hrun
  refine ⟨s₀,_,h₀,hrun,h0,fun ha => ?_⟩
  have hroom := (hok'.provided h0 ha).room
  have hnone : hasRoom ([1,2,1,2,1024,512,256,128,64,32,16,8,2]++plainStart.pages) initializeHeap =
      false := by
    decide +kernel
  exact absurd (hroom.symm.trans ((hrest _).symm.trans hnone)) (by decide)

end Launch
end ComplexOS
