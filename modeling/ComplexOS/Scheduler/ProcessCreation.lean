import ComplexOS.Library.Calls
import ComplexOS.Scheduler.ArgumentCopies
import ComplexOS.Scheduler.SessionCalls

/-! # The creation of a process

`sysRunProcess` together with the heap that it takes the blocks of a process from. Nothing
checks what the heap answers for the record and for the stack.
-/
namespace ComplexOS
open BuddyAllocator Call

def processSize : ℕ := 592
def threadInitialPages : ℕ := 2

/-- The fields of a process that the scheduler has no use for, and what its first thread
finds in its registers. -/
structure Program where
  name : List UInt8
  standardPipes : ℤ × ℤ
  entryPoint : ℕ
  argc : ℤ
  argv : ArgumentArray

structure Launch where
  session : Session
  memory : RunState
  /-- By pid. -/
  programs : ℤ → Option Program

/-- A call stops at a write through NULL, and where the session or the heap has no step. -/
inductive LaunchStop
  | nullWrite | fails
  deriving DecidableEq, Repr

abbrev LaunchCall := Call Launch LaunchStop

/-- What `sysRunProcess` is called with, and what it finds in fresh memory. -/
structure RunRequest where
  entryPoint : ℕ
  argc : ℕ
  argv : ArgumentArray
  background : ℕ
  page : ℕ → Argument
  record : ProcessRecord

namespace Launch

def heapCall (f : RunState → Option (ℕ × RunState)) : LaunchCall ℕ :=
  partly .fails (fun l => (f l.memory).map (fun x => (x.1,{ l with memory := x.2 })))

def backupArguments (argc : ℤ) (argv : ArgumentArray) (page : ℕ → Argument) :
    LaunchCall ArgumentArray :=
  partly .fails (fun l => (RunState.backupArguments argc argv page l.memory).map (fun x =>
    (x.1,{ l with memory := x.2 })))

def createThread : LaunchCall ℕ := do
  let aux ← heapCall (RunState.allocatePages threadInitialPages)
  if aux = null then stop .nullWrite else pure aux

def createProcess (entryPoint : ℕ) (argc : ℤ) (argv : ArgumentArray) (name : List UInt8)
    (record : ProcessRecord) : LaunchCall ProcessRecord := do
  let process ← heapCall (RunState.allocateMemory processSize)
  if process = null then stop .nullWrite
  else do
    let stack ← createThread
    partly .fails (fun l => (l.session.createProcess { record with address := process } stack).map
      (fun x => (x.1,{ l with
        session := x.2
        programs := Function.update l.programs x.1.pid (some ⟨if name.length < maxName then name
          else [],(-1,-1),entryPoint,argc,argv⟩) })))

def addProcess (process : ProcessRecord) : LaunchCall ℤ := fun l =>
  .ok ((l.session.scheduler.addProcess process).2,
    { l with session := l.session.addProcess process })

/-- The lines of `sysRunProcess` for a process in front. -/
def moveForeground (process : ProcessRecord) : LaunchCall Unit :=
  partly .fails (fun l => ((l.session.changeForegroundState .sleeping).bind (fun s =>
    s.setForeground process.pid)).map (fun s => ((),{ l with session := s })))

/-- `sysRunProcess` from `addProcess` on. It stops in front of the yield. -/
def enterProcess (background : ℕ) (process : ProcessRecord) : LaunchCall ℤ := do
  let ret ← addProcess process
  if background ≠ 0 then pure ret
  else do
    moveForeground process
    pure ret

def sysRunProcess (r : RunRequest) : LaunchCall ℤ := do
  let argv ← backupArguments (toInt r.argc) r.argv r.page
  let process ← createProcess r.entryPoint (toInt r.argc) argv (argv.entries 0).text r.record
  enterProcess r.background process

end Launch

/-! ### The blocks of a process -/

def processPages : List ℕ := [pagesToAllocate processSize,threadInitialPages]

def RunRequest.pages (r : RunRequest) : List ℕ :=
  argumentPages (toInt r.argc) r.argv++processPages

namespace Launch
open Scheduler
variable {l l' : Launch} {m m' : RunState} {a : ℕ} {f : RunState → Option (ℕ × RunState)}

theorem heapCall_ok (h : f l.memory = some (a,m)) :
    heapCall f l = .ok (a,{ l with memory := m }) := by
  apply partly_ok.mpr
  simp [h]

theorem createThread_cases (hm : RunOk l.memory) :
    (∃ m, Short [threadInitialPages] l.memory m ∧ createThread l = .error .nullWrite) ∨
      ∃ stack m, Obtained [threadInitialPages] [stack] l.memory m ∧
        createThread l = .ok (stack,{ l with memory := m }) := by
  obtain ⟨a,m,he,hcase⟩ := RunState.allocatePages_cases hm threadInitialPages
  unfold createThread
  rw [bind_of_ok (heapCall_ok he)]
  obtain ⟨ha,hshort⟩ | ⟨ha,hone⟩ := hcase
  · rw [if_pos ha]
    exact Or.inl ⟨m,hshort,rfl⟩
  · rw [if_neg ha]
    exact Or.inr ⟨a,m,hone,rfl⟩

structure Prepared (l : Launch) (program : Program) (p : ProcessRecord) (stack : ℕ) (l' : Launch) :
    Prop where
  called : ∃ memory, l.session.createProcess memory stack = some (p,l'.session)
  pid : l.session.nextPid < maxInt
  ready : (p.threads 0).thread = some ⟨.ready,notWaiting,stack⟩
  blocks : Obtained processPages [p.address,stack] l.memory l'.memory
  programs : l'.programs = Function.update l.programs p.pid (some program)

variable {p : ProcessRecord}

/-- A record without a block, or a stack without one, is written through NULL. -/
theorem createProcess_cases (entryPoint : ℕ) (argc : ℤ) (argv : ArgumentArray) (name : List UInt8)
    (record : ProcessRecord) (hm : RunOk l.memory) (hs : l.session.Ok) :
    (∃ e m, Short processPages l.memory m ∧
        createProcess entryPoint argc argv name record l = .error e) ∨
      (¬ l.session.nextPid < maxInt ∧
        ∃ e, createProcess entryPoint argc argv name record l = .error e) ∨
        l.session.nextPid < maxInt ∧ ∃ p stack l', Prepared l
          ⟨if name.length < maxName then name else [],(-1,-1),entryPoint,argc,argv⟩ p stack l' ∧
            createProcess entryPoint argc argv name record l = .ok (p,l') := by
  obtain ⟨a,m,he,hcase⟩ := RunState.allocatePages_cases hm (pagesToAllocate processSize)
  unfold createProcess
  rw [bind_of_ok (heapCall_ok (f := RunState.allocateMemory processSize) he)]
  obtain ⟨ha,hshort⟩ | ⟨ha,hone⟩ := hcase
  · rw [if_pos ha]
    exact Or.inl ⟨_,m,hshort.append,rfl⟩
  rw [if_neg ha]
  obtain ⟨m',hshort,hthread⟩ | ⟨stack,m',htwo,hthread⟩ :=
    createThread_cases (l := { l with memory := m }) hone.ok
  · exact Or.inl ⟨_,m',hone.short hshort,bind_of_error hthread⟩
  rw [bind_of_ok hthread]
  refine Or.inr ?_
  by_cases hpid : l.session.nextPid < maxInt
  · obtain ⟨ppid,hppid⟩ := hs.getpid
    obtain ⟨p,s',hc,haddress,hready⟩ : ∃ p s',
        l.session.createProcess { record with address := a } stack = some (p,s') ∧
          p.address = a ∧ (p.threads 0).thread = some ⟨.ready,notWaiting,stack⟩ := by
      unfold Session.createProcess increment
      rw [hppid,Option.bind_some,if_pos hpid]
      exact ⟨_,_,rfl,rfl,rfl⟩
    refine Or.inr ⟨hpid,p,stack,⟨s',m',Function.update l.programs p.pid (some _)⟩,
      ⟨⟨_,hc⟩,hpid,hready,haddress ▸ hone.append htwo,rfl⟩,?_⟩
    apply partly_ok.mpr
    simp [hc]
  · refine Or.inl ⟨hpid,.fails,partly_error.mpr ⟨?_,rfl⟩⟩
    obtain ⟨ppid,hppid⟩ := hs.getpid
    simp [Session.createProcess,increment,hppid,hpid]

/-! ### The process in the ring -/

def Vacant (s : Session) : Prop :=
  s.scheduler.processQuantity ≠ maxProcesses ∧ InTable s.scheduler.firstAvailableSpace

structure Entered (s : Session) (background : ℕ) (p : ProcessRecord) (s' : Session) : Prop where
  slot : ∃ j, ¬ s.scheduler.Live j ∧ s'.scheduler.Has j p ∧
    ∀ i, s'.scheduler.Live i ↔ s.scheduler.Live i ∨ i = j
  queued : ∃ slots, s'.scheduler.Queued slots
  foreground : s'.foreground = if background ≠ 0 then s.foreground else some p.pid

variable {background : ℕ} {ret : ℤ}

theorem Prepared.created {program : Program} {stack : ℕ} (h : Prepared l program p stack l') :
    Session.Created l.session p ∧
      l'.session = { l.session with nextPid := l.session.nextPid+1 } := by
  obtain ⟨memory,hc⟩ := h.called
  exact Session.createProcess_cases hc

theorem moveForeground_ok : moveForeground p l = .ok ((),l') ↔ ∃ s s',
    l.session.changeForegroundState .sleeping = some s ∧ s.setForeground p.pid = some s' ∧
      l' = { l with session := s' } := by
  unfold moveForeground
  rw [partly_ok,Option.map_eq_some_iff]
  constructor
  · rintro ⟨s',hs',he⟩
    obtain ⟨s,hs,hs'⟩ := Option.bind_eq_some_iff.mp hs'
    obtain ⟨-,rfl⟩ := Prod.mk.inj he
    exact ⟨s,s',hs,hs',rfl⟩
  · rintro ⟨s,s',hs,hs',rfl⟩
    exact ⟨s',Option.bind_eq_some_iff.mpr ⟨s,hs,hs'⟩,rfl⟩

theorem enterProcess_ok : enterProcess background p l = .ok (ret,l') ↔
    ret = (l.session.scheduler.addProcess p).2 ∧
      if background ≠ 0 then l' = { l with session := l.session.addProcess p }
      else ∃ s₁ s', (l.session.addProcess p).changeForegroundState .sleeping = some s₁ ∧
        s₁.setForeground p.pid = some s' ∧ l' = { l with session := s' } := by
  unfold enterProcess
  rw [bind_of_ok (rfl : addProcess p l = _)]
  constructor
  · intro hx
    split at hx
    · rename_i hb
      cases hx
      exact ⟨rfl,by rw [if_pos hb]⟩
    · rename_i hb
      obtain ⟨u,l₂,hmove,hx⟩ := bind_ok.mp hx
      obtain ⟨s₁,s',h₁,h₂,rfl⟩ := moveForeground_ok.mp hmove
      cases hx
      refine ⟨rfl,?_⟩
      rw [if_neg hb]
      exact ⟨s₁,s',h₁,h₂,rfl⟩
  · rintro ⟨rfl,hx⟩
    split at hx
    · rename_i hb
      rw [if_pos hb,hx]
      rfl
    · rename_i hb
      obtain ⟨s₁,s',h₁,h₂,rfl⟩ := hx
      rw [if_neg hb]
      exact bind_ok.mpr ⟨(),_,moveForeground_ok.mpr ⟨s₁,s',h₁,h₂,rfl⟩,rfl⟩

/-- The session goes the way it goes without a heap. -/
theorem Prepared.session {program : Program} {stack : ℕ} (h : Prepared l program p stack l')
    {l'' : Launch} (hx : enterProcess background p l' = .ok (ret,l'')) :
    ∃ memory, l.session.sysRunProcess memory stack (decide (background ≠ 0)) = some l''.session := by
  obtain ⟨memory,hc⟩ := h.called
  obtain ⟨-,hx⟩ := enterProcess_ok.mp hx
  refine ⟨memory,?_⟩
  unfold Session.sysRunProcess
  simp only [hc,Option.bind_eq_bind,Option.bind_some]
  split at hx
  · rename_i hb
    rw [if_pos (decide_eq_true hb),hx]
  · rename_i hb
    obtain ⟨s₁,s',h₁,h₂,rfl⟩ := hx
    rw [if_neg (by simpa using hb),h₁,Option.bind_some]
    exact h₂

end Launch
end ComplexOS
