import ComplexOS.Ipc.ChannelLocks
import ComplexOS.Ipc.Pipe
import ComplexOS.Kernel.FullLists
import ComplexOS.Kernel.SelfDeadlock
import ComplexOS.Kernel.SemaphoreNames

/-! # Opening pipes

The calls of `pipes.c` that names and descriptors lead into. A new pipe asks for two semaphores,
a page and a mutex one after the other, under names of its slot, and a mutex that is there under
one of these names costs the call `adminMutex`, which it needs again. -/
namespace ComplexOS
open Kernel Call

def nameLength : ℕ := 20

def semWriteName (i : ℕ) : List UInt8 := bytes "PIPE_WRITE_" ++ uintToBase i 10
def semReadName (i : ℕ) : List UInt8 := bytes "PIPE_READ_" ++ uintToBase i 10
def mutexName (i : ℕ) : List UInt8 := bytes "PIPE_MUTEX_" ++ uintToBase i 10

/-- The name is copied as far as `strlen` goes, without its NUL. -/
def PipeEntry.claim (p : PipeEntry) (pipeName : List UInt8) (t : ThreadId) : PipeEntry :=
  { p with
    creator := t
    name := fun j => pipeName.getD j (p.name j)
    readIndex := 0
    writeIndex := 0
    used := true }

namespace Registry

def streams : ℤ := 3

def setPipe (i : ℕ) (f : PipeEntry → PipeEntry) (s : Registry) : Registry :=
  { s with pipes := Function.update s.pipes i (f (s.pipes i)) }

/-- The last lines of `createPipe`. -/
def completePipe (i : ℕ) (pid thread : ℤ) : KernelCall Unit := do
  let semRead ← createSemaphore pid (semReadName i) thread
  modify (setPipe i (fun p => { p with semRead := semRead.getD semCreationError }))
  let buffer ← allocatePages pipePages
  modify (setPipe i (fun p => { p with buffer := buffer }))
  let mutex ← getMutex (mutexName i) pid thread
  modify (setPipe i (fun p => { p with mutex := mutex.getD mutexCreationError }))

/-- `createPipe` once it has a slot. -/
def equipPipe (i : ℕ) (pid thread : ℤ) : KernelCall Unit := do
  let semWrite ← createSemaphore pid (semWriteName i) thread
  modify (setPipe i (fun p => { p with semWrite := semWrite.getD semCreationError }))
  setValue (semWrite.getD semCreationError) pipeBufferLength
  completePipe i pid thread

def createPipe (pipeName : List UInt8) : KernelCall ℤ := do
  let s ← get
  match SlotTable.firstFree (fun p : PipeEntry => p.used = true) maxPipes.toNat s.pipes with
  | some i =>
    modify (setPipe i (fun p => p.claim pipeName s.kernel.caller))
    equipPipe i s.kernel.getpid s.kernel.getCurrentThread
    pure i
  | none => pure (-1)

def getPipe (pipeName : List UInt8) : KernelCall ℤ := do
  let s ← get
  match SlotTable.firstUsed (fun p : PipeEntry => strcmp p.name pipeName = 0 ∧ p.used = true)
      maxPipes.toNat s.pipes with
  | some i => pure (i+3)
  | none =>
    let pipe ← createPipe pipeName
    pure (pipe+3)

def sysOpenPipe (name : List UInt8) : KernelCall ℤ := getPipe name

/-- The slot that `writePipe` and `readPipe` go to. -/
def transferSlot (s : Registry) (fd : ℤ) : Option ℕ :=
  if s.isValidPipe (fd-3) then some (fd-3).toNat else none

variable {s s' d : Registry} {name : List UInt8} {pid thread m semaphore v : ℤ} {i : ℕ}
  {t : ThreadId} {r : Option ℤ} {b : Bool} {k : Kernel}

/-! ### What the requests of a new pipe leave in the tables -/

/-- Between two calls nobody waits, and no lock is held but `adminMutex`, which may be lost. -/
structure Rests (s : Registry) : Prop where
  guarded : s.kernel.Guarded
  sound : ∀ i, InMutexes i → (s.kernel.mutexes i).Ok
  opened : ∀ i, InMutexes i → i ≠ adminMutex → (s.kernel.mutexes i).value ≠ locked
  waiters : ∀ i, InSemaphores i → (s.kernel.semaphores i).list.blockedQuantity = 0
  semaphoreMutex : s.semaphoreMutex = 1
  buddyMutex : s.buddyMutex = adminMutex
  heap : BuddyAllocator.HeapOk s.heap

/-- The table after `setValue`: the exchange marks the slot behind the semaphore's mutex. -/
def valued (semaphore v : ℤ) (s : Registry) : Registry :=
  if s.kernel.isValidSemaphore semaphore then
    writeValue semaphore v (if s.kernel.isValidMutex (s.kernel.semaphores semaphore).mutex then
      { s with kernel := s.kernel.cycle (s.kernel.semaphores semaphore).mutex s.kernel.caller }
    else s)
  else s

/-- What a new pipe needs of the tables: its semaphores find no mutex of their names, the second
one after the first has been made and set. -/
def PipeRoom (pid thread : ℤ) (i : ℕ) (s : Registry) : Prop :=
  let x := registerSemaphore pid (semWriteName i) thread s
  s.Vacant (semWriteName i) ∧
    (valued (x.1.getD semCreationError) pipeBufferLength x.2).Vacant (semReadName i)

/-- A call that has left the lists of the waiters, the values of the locks and the pipes. -/
structure Quietly (s s' : Registry) : Prop extends SameLocks s s' where
  guarded : s'.kernel.Guarded
  list : ∀ i, (s'.kernel.mutexes i).list = (s.kernel.mutexes i).list
  value : ∀ i, (s'.kernel.mutexes i).value = (s.kernel.mutexes i).value
  waiters : ∀ i, (s'.kernel.semaphores i).list = (s.kernel.semaphores i).list
  heap : BuddyAllocator.HeapOk s.heap → BuddyAllocator.HeapOk s'.heap
  pipes : s'.pipes = s.pipes

theorem Quietly.trans {s₁ : Registry} (h : Quietly s s₁) (h' : Quietly s₁ s') : Quietly s s' where
  semaphoreMutex := h'.semaphoreMutex.trans h.semaphoreMutex
  buddyMutex := h'.buddyMutex.trans h.buddyMutex
  channelMutex := h'.channelMutex.trans h.channelMutex
  guarded := h'.guarded
  list i := (h'.list i).trans (h.list i)
  value i := (h'.value i).trans (h.value i)
  waiters i := (h'.waiters i).trans (h.waiters i)
  heap hh := h'.heap (h.heap hh)
  pipes := h'.pipes.trans h.pipes

namespace Rests

theorem orderly (h : s.Rests) (ha : (s.kernel.mutexes adminMutex).value = unlocked) : s.Orderly :=
  ⟨h.guarded,h.sound,ha⟩

theorem open_value (h : s.Rests) (ha : (s.kernel.mutexes adminMutex).value = unlocked)
    (hm : InMutexes m) : (s.kernel.mutexes m).value ≠ locked := by
  by_cases he : m = adminMutex
  · rw [he,ha]
    decide
  · exact h.opened m hm he

theorem quiet (h : s.Rests) (ha : (s.kernel.mutexes adminMutex).value = unlocked) : s.kernel.Quiet :=
  ⟨h.guarded,fun i hi => (h.sound i hi).idle (h.open_value ha hi)⟩

theorem quietly (h : s.Rests) (hq : Quietly s s') : s'.Rests where
  guarded := hq.guarded
  sound i hi := (h.sound i hi).congr (hq.list i) (hq.value i)
  opened i hi hne := by
    rw [hq.value]
    exact h.opened i hi hne
  waiters i hi := by
    rw [hq.waiters]
    exact h.waiters i hi
  semaphoreMutex := hq.semaphoreMutex.trans h.semaphoreMutex
  buddyMutex := hq.buddyMutex.trans h.buddyMutex
  heap := hq.heap h.heap

/-- What is written into the table of the pipes. -/
theorem setPipe (h : s.Rests) {f : PipeEntry → PipeEntry} : (s.setPipe i f).Rests :=
  ⟨h.guarded,h.sound,h.opened,h.waiters,h.semaphoreMutex,h.buddyMutex,h.heap⟩

end Rests

/-- Another thread on record for an open lock. -/
theorem lockSlot_quietly (hg : k.Guarded) (hv : (k.mutexes m).value = unlocked)
    (hk : s.kernel = k) : Quietly s { s with kernel := k.lockSlot m unlocked t } := by
  subst hk
  refine ⟨⟨rfl,rfl,rfl⟩,hg.lockSlot,fun _ => lockSlot_list,fun i => ?_,fun _ => rfl,id,rfl⟩
  show ((s.kernel.lockSlot m unlocked t).mutexes i).value = _
  by_cases he : i = m
  · subst he
    rw [lockSlot_self,hv]
  · rw [lockSlot_of_ne he]

theorem Unlocks.refl (ha : (s.kernel.mutexes adminMutex).value = unlocked) : Unlocks s s := by
  refine ⟨(s.kernel.mutexes adminMutex).lockProcess,?_⟩
  have hm : (s.kernel.lockSlot adminMutex unlocked (s.kernel.mutexes adminMutex).lockProcess) =
      s.kernel := by
    unfold lockSlot
    rw [← ha,Function.update_eq_self]
  rw [hm]

theorem createSemaphore_frame (h : createSemaphore pid name thread s = .ok (r,s')) :
    s'.heap = s.heap ∧ s'.pipes = s.pipes ∧ s'.buddyMutex = s.buddyMutex := by
  obtain ⟨-,-,rfl⟩ | ⟨-,-,m,s₁,hg,⟨-,-,rfl⟩ | ⟨mutex,-,-,rfl⟩⟩ := createSemaphore_ok h
  · exact ⟨rfl,rfl,rfl⟩
  · rw [getMutex_rest hg]
    exact ⟨rfl,rfl,rfl⟩
  · rw [getMutex_rest hg]
    exact ⟨rfl,rfl,rfl⟩

/-- A semaphore is made with a mutex of its own if there is none of its name yet. -/
theorem createSemaphore_vacant (h : s.Rests) (ha : (s.kernel.mutexes adminMutex).value = unlocked)
    (hv : s.Vacant name) : ∃ s', createSemaphore pid name thread s =
      .ok ((registerSemaphore pid name thread s).1,s') ∧
      Unlocks (registerSemaphore pid name thread s).2 s' ∧ Quietly s s' := by
  obtain ⟨s',hcall,hl⟩ : ∃ s', createSemaphore pid name thread s = _ ∧ _ :=
    createSemaphore_registers (h.orderly ha) (Unlocks.refl ha) hv
  refine ⟨s',hcall,hl,?_⟩
  obtain ⟨hheap,hpipes,-⟩ := createSemaphore_frame hcall
  have hr : Registers pid s _ := registerSemaphore_registers s pid name thread
  obtain ⟨u,hs⟩ := hl
  have hk : s'.kernel = (registerSemaphore pid name thread s).2.kernel.lockSlot adminMutex unlocked u :=
    congrArg Registry.kernel hs
  refine ⟨?_,?_,fun i => ?_,fun i => ?_,fun i => ?_,fun hh => by rw [hheap]; exact hh,hpipes⟩
  · rw [hs]
    exact ⟨hr.semaphoreMutex,hr.buddyMutex,hr.channelMutex⟩
  · rw [hk]
    exact (hr.guarded h.guarded).lockSlot
  · rw [hk,lockSlot_list]
    exact hr.slot.2
  · rw [hk]
    by_cases he : i = adminMutex
    · rw [he,lockSlot_self,ha]
    · rw [lockSlot_of_ne he]
      exact hr.slot.1
  · rw [hk]
    exact hr.waiters i

theorem writeValue_quietly (hg : s.kernel.Guarded) : Quietly s (writeValue semaphore v s) :=
  ⟨⟨rfl,rfl,rfl⟩,hg.congr (fun _ _ _ => rfl) rfl,fun _ => rfl,fun _ => rfl,
    fun _ => setSemaphore_list rfl,id,rfl⟩

theorem cycle_quietly (hg : s.kernel.Guarded) (hv : (s.kernel.mutexes m).value = unlocked) :
    Quietly s { s with kernel := s.kernel.cycle m t } :=
  ⟨⟨rfl,rfl,rfl⟩,hg.cycle,fun _ => (cycle_slot hv).2.1,fun _ => (cycle_slot hv).1,fun _ => rfl,id,rfl⟩

theorem cycle_name {j : ℤ} : ((k.cycle m t).mutexes j).name = (k.mutexes j).name := by
  by_cases hj : j = m
  · rw [hj,cycle_self]
  · by_cases hj' : j = m+1
    · rw [hj',cycle_next]
    · rw [cycle_far hj hj']

theorem valued_name {j : ℤ} :
    ((valued semaphore v s).kernel.mutexes j).name = (s.kernel.mutexes j).name := by
  unfold valued
  split
  · split
    · exact cycle_name
    · rfl
  · rfl

/-- `setValue` comes back, as all mutexes are open. -/
theorem setValue_valued (h : s.Rests) (ha : (s.kernel.mutexes adminMutex).value = unlocked) :
    setValue semaphore v s = .ok ((),valued semaphore v s) ∧ Quietly s (valued semaphore v s) := by
  unfold setValue valued
  rw [get_bind]
  by_cases hv : s.kernel.isValidSemaphore semaphore
  · rw [if_pos hv,if_pos hv]
    generalize (s.kernel.semaphores semaphore).mutex = m
    by_cases hm : s.kernel.isValidMutex m
    · have hr : InMutexes m := ⟨hm.1,hm.2.1⟩
      have hopen := h.open_value ha hr
      have hcycle : Quietly s { s with kernel := s.kernel.cycle m s.kernel.caller } :=
        cycle_quietly h.guarded ((h.sound m hr).open_value hopen)
      rw [if_pos hm,bind_of_ok (mutexDown_free hm hopen),modify_bind]
      exact ⟨mutexUp_free (k := (writeValue semaphore v s).kernel) rfl hm ((h.quiet ha).pop hr),
        hcycle.trans (writeValue_quietly hcycle.guarded)⟩
    · have hpass : s.kernel.mutexDown m s.kernel.caller = _ := mutexDown_invalid hm
      rw [if_neg hm,bind_of_ok (a := ()) (mutexDown_ok.mpr ⟨_,hpass,rfl⟩),modify_bind]
      exact ⟨mutexUp_ok.mpr ⟨_,mutexUp_ignored (fun hx => hm hx.1),rfl⟩,writeValue_quietly h.guarded⟩
  · rw [if_neg hv,if_neg hv]
    exact ⟨rfl,⟨rfl,rfl,rfl⟩,h.guarded,fun _ => rfl,fun _ => rfl,fun _ => rfl,id,rfl⟩

/-- A page is asked for, and its address is one of the arena if there is one. -/
theorem allocatePage_quietly (h : s.Rests) (ha : (s.kernel.mutexes adminMutex).value = unlocked) :
    ∃ a s', allocatePages pipePages s = .ok (a,s') ∧ Quietly s s' ∧
      (a = BuddyAllocator.null ∨ BuddyAllocator.InArena a) := by
  obtain ⟨heap,he,hd,hok⟩ := BuddyAllocator.allocatePages_spec h.heap le_rfl (by decide)
  have hvalid := h.guarded.valid (m := adminMutex) (by decide) (by decide)
  have hopen := h.open_value ha (m := adminMutex) (by decide)
  have hdown : mutexDown s.buddyMutex s.kernel.caller s = _ :=
    (congrArg (fun m => mutexDown m s.kernel.caller s) h.buddyMutex).trans (mutexDown_free hvalid hopen)
  have hup : mutexUp s.buddyMutex s.kernel.caller { s with
      kernel := s.kernel.take adminMutex s.kernel.caller, heap := heap } = _ :=
    (congrArg (fun m => mutexUp m s.kernel.caller _) h.buddyMutex).trans
      (mutexUp_free rfl hvalid ((h.quiet ha).pop (by decide)))
  have hcall : allocatePages pipePages s =
      .ok (BuddyAllocator.searchAddress (BuddyAllocator.chosen 1 s.heap),{ s with
        kernel := s.kernel.cycle adminMutex s.kernel.caller
        heap := heap }) := by
    have hone : allocatePages (pipePages : ℕ) = allocatePages 1 := rfl
    rw [hone]
    unfold allocatePages
    rw [if_neg (by decide),get_bind,bind_of_ok hdown,
      bind_of_ok (partly_ok.mpr (by rw [show BuddyAllocator.getPages 1 _ = _ from he]; rfl)),
      bind_of_ok hup]
    rfl
  have hcycle : Quietly s { s with kernel := s.kernel.cycle adminMutex s.kernel.caller } :=
    cycle_quietly h.guarded ha
  refine ⟨_,_,hcall,⟨⟨rfl,rfl,rfl⟩,hcycle.guarded,hcycle.list,hcycle.value,hcycle.waiters,
    fun _ => hok,rfl⟩,?_⟩
  cases hc : BuddyAllocator.chosen 1 s.heap with
  | none => exact Or.inl rfl
  | some n =>
    have hn := hd.allocated h.heap hc
    exact Or.inr (BuddyAllocator.base_mem_block hn.pos hn.inside).1

theorem createMutex_slot {k' : Kernel} {j : ℤ} (h : k.createMutex pid name thread = (r,k')) :
    (k'.mutexes j).list = (k.mutexes j).list ∧ (k'.mutexes j).value = (k.mutexes j).value := by
  obtain ⟨-,-,rfl⟩ | ⟨-,-,-,hm,-⟩ := createMutex_cases h
  · exact ⟨rfl,rfl⟩
  · rw [hm]
    by_cases he : j = k.firstAvailableMutex
    · rw [he,Function.update_self]
      exact ⟨rfl,rfl⟩
    · rw [Function.update_of_ne he]
      exact ⟨rfl,rfl⟩

/-- The mutex is got, and `adminMutex` is lost with one that was there. -/
theorem getMutex_rests (h : s.Rests) (ha : (s.kernel.mutexes adminMutex).value = unlocked) :
    ∃ r s', getMutex name pid thread s = .ok (r,s') ∧ s'.Rests ∧ s'.pipes = s.pipes := by
  have hopen := h.open_value ha (m := adminMutex) (by decide)
  cases hi : s.kernel.findMutex name with
  | some i =>
    refine ⟨_,_,getMutex_hit h.guarded hopen hi,⟨h.guarded.lockSlot,fun j hj => ?_,fun j hj hne => ?_,
      h.waiters,h.semaphoreMutex,h.buddyMutex,h.heap⟩,rfl⟩
    · by_cases he : j = adminMutex
      · subst he
        rw [lockSlot_self]
        exact (h.sound _ hj).taken (Or.inr hopen) (.free hopen)
      · rw [lockSlot_of_ne he]
        exact h.sound j hj
    · rw [lockSlot_of_ne hne]
      exact h.opened j hj hne
  | none =>
    obtain ⟨r,k,hk⟩ : ∃ r k, s.kernel.createMutex pid name thread = (r,k) := ⟨_,_,rfl⟩
    refine ⟨_,_,getMutex_miss h.guarded hopen ((h.quiet ha).pop (by decide)) hi hk,?_,rfl⟩
    have hcreate : Quietly s { s with kernel := k } := by
      refine ⟨⟨rfl,rfl,rfl⟩,h.guarded.createMutex hk,fun i => ?_,fun i => ?_,fun i => ?_,id,rfl⟩
      · exact (createMutex_slot hk).1
      · exact (createMutex_slot hk).2
      · obtain ⟨-,-,rfl⟩ | ⟨-,-,-,-,-,-,hs,-⟩ := createMutex_cases hk
        · rfl
        · exact congrArg (fun f => (f i).list) hs
    have hadmin : (k.mutexes adminMutex).value = unlocked := (hcreate.value _).trans ha
    exact h.quietly (hcreate.trans (lockSlot_quietly hcreate.guarded hadmin rfl))

/-! ### The second name is looked for in a table that has the first -/

structure Alike (s s' : Registry) : Prop where
  semaphores : s'.kernel.semaphores = s.kernel.semaphores
  usedSemaphores : s'.usedSemaphores = s.usedSemaphores
  creator : ∀ i, (s'.kernel.mutexes i).creator = (s.kernel.mutexes i).creator
  name : ∀ i, (s'.kernel.mutexes i).name = (s.kernel.mutexes i).name

namespace Alike

theorem vacant (h : Alike s s') : s'.Vacant name ↔ s.Vacant name := by
  have hfind : s'.kernel.findMutex name = s.kernel.findMutex name := by
    unfold findMutex
    simp only [SlotTable.firstUsed,h.name,h.creator]
  unfold Vacant HasRoom
  rw [hfind,h.usedSemaphores]

theorem cycle (h : Alike s s') {u : ThreadId} : Alike { s with kernel := s.kernel.cycle m t }
    { s' with kernel := s'.kernel.cycle m u } := by
  have hcreator : ∀ j, ((s'.kernel.cycle m u).mutexes j).creator =
      ((s.kernel.cycle m t).mutexes j).creator := by
    intro j
    by_cases hj : j = m
    · subst hj
      rw [cycle_self,cycle_self]
      exact h.creator j
    · by_cases hj' : j = m+1
      · subst hj'
        rw [cycle_next,cycle_next,h.creator]
      · rw [cycle_far hj hj',cycle_far hj hj']
        exact h.creator j
  exact ⟨h.semaphores,h.usedSemaphores,hcreator,fun j => by rw [cycle_name,cycle_name,h.name]⟩

theorem writeValue (h : Alike s s') :
    Alike (writeValue semaphore v s) (writeValue semaphore v s') := by
  refine ⟨?_,h.usedSemaphores,h.creator,h.name⟩
  show Function.update s'.kernel.semaphores _ _ = Function.update s.kernel.semaphores _ _
  rw [h.semaphores]

theorem valued (h : Alike s s') : Alike (valued semaphore v s) (valued semaphore v s') := by
  have hvalid : s'.kernel.isValidSemaphore semaphore ↔ s.kernel.isValidSemaphore semaphore := by
    unfold isValidSemaphore
    rw [h.semaphores]
  have hmutex : s'.kernel.isValidMutex (s.kernel.semaphores semaphore).mutex ↔
      s.kernel.isValidMutex (s.kernel.semaphores semaphore).mutex := by
    unfold isValidMutex
    rw [h.creator]
  unfold Registry.valued
  rw [h.semaphores]
  by_cases hv : s.kernel.isValidSemaphore semaphore
  · rw [if_pos hv,if_pos (hvalid.mpr hv)]
    by_cases hm : s.kernel.isValidMutex (s.kernel.semaphores semaphore).mutex
    · rw [if_pos hm,if_pos (hmutex.mpr hm)]
      exact h.cycle.writeValue
    · rw [if_neg hm,if_neg (fun hx => hm (hmutex.mp hx))]
      exact h.writeValue
  · rw [if_neg hv,if_neg (fun hx => hv (hvalid.mp hx))]
    exact h

end Alike

theorem Unlocks.alike (h : Unlocks d s) : Alike d s := by
  obtain ⟨u,hs⟩ := h
  rw [hs]
  exact ⟨rfl,rfl,fun _ => lockSlot_creator,fun _ => lockSlot_name⟩

theorem alike_setPipe {f : PipeEntry → PipeEntry} : Alike s (s.setPipe i f) :=
  ⟨rfl,rfl,fun _ => rfl,fun _ => rfl⟩

theorem registerSemaphore_setPipe {j : ℕ} {f : PipeEntry → PipeEntry} :
    registerSemaphore pid name thread (s.setPipe j f) =
      ((registerSemaphore pid name thread s).1,
        (registerSemaphore pid name thread s).2.setPipe j f) := by
  have hk : (claimSemaphore pid name thread (s.setPipe j f)).kernel =
      (claimSemaphore pid name thread s).kernel := rfl
  have hroom : (s.setPipe j f).HasRoom name ↔ s.HasRoom name := Iff.rfl
  unfold registerSemaphore
  simp only [hk,hroom]
  by_cases h : s.HasRoom name
  · rw [if_pos h,if_pos h]
    generalize (claimSemaphore pid name thread s).kernel.createMutex pid name thread = x
    obtain ⟨r,k⟩ := x
    cases r with
    | none => rfl
    | some mutex => rfl
  · rw [if_neg h,if_neg h]

theorem pipeRoom_setPipe {j : ℕ} {f : PipeEntry → PipeEntry} :
    PipeRoom pid thread i (s.setPipe j f) ↔ PipeRoom pid thread i s := by
  have hvacant : (s.setPipe j f).Vacant (semWriteName i) ↔ s.Vacant (semWriteName i) := Iff.rfl
  unfold PipeRoom
  rw [registerSemaphore_setPipe]
  exact and_congr hvacant alike_setPipe.valued.vacant

/-! ### A lock that is lost is asked for again -/

/-- `adminMutex` is lost, and the heap needs it. -/
def Lost (s : Registry) : Prop := s.Leaked ∧ s.buddyMutex = adminMutex

def StaysLost {α : Type} (x : KernelCall α) : Prop := Spec Lost x (fun _ => Lost) (fun _ => True)

def NeedsLock {α : Type} (x : KernelCall α) : Prop := Spec Lost x (fun _ _ => False) (fun _ => True)

theorem createSemaphore_lost : StaysLost (createSemaphore pid name thread) := by
  refine ⟨fun s r s' h hx => ⟨createSemaphore_leaked.ok s r s' h.1 hx,?_⟩,fun _ _ _ _ => trivial⟩
  rw [(createSemaphore_frame hx).2.2]
  exact h.2

theorem setValue_lost : StaysLost (setValue semaphore v) := by
  refine ⟨fun s u s' h hx => ⟨setValue_leaked.ok s u s' h.1 hx,?_⟩,fun _ _ _ _ => trivial⟩
  unfold setValue at hx
  rw [get_bind] at hx
  split at hx
  · obtain ⟨⟨⟩,s₁,hd,hx⟩ := bind_ok.mp hx
    obtain ⟨k,-,rfl⟩ := mutexDown_ok.mp hd
    rw [modify_bind] at hx
    obtain ⟨k',-,rfl⟩ := mutexUp_ok.mp hx
    exact h.2
  · cases hx
    exact h.2

theorem setPipe_lost {f : PipeEntry → PipeEntry} : StaysLost (modify (setPipe i f)) :=
  Spec.update (fun _ h => h)

theorem allocatePages_lost : NeedsLock (allocatePages pipePages) := by
  refine ⟨fun s a s' h hx => ?_,fun _ _ _ _ => trivial⟩
  have hone : allocatePages (pipePages : ℕ) = allocatePages 1 := rfl
  rw [hone] at hx
  unfold allocatePages at hx
  rw [if_neg (by decide),get_bind] at hx
  have hwait := mutexDown_waits (t := s.kernel.caller) (h.1.1.valid (m := adminMutex) (by decide)
    (by decide)) h.1.2
  have hdown : mutexDown s.buddyMutex s.kernel.caller s = _ :=
    (congrArg (fun m => mutexDown m s.kernel.caller s) h.2).trans hwait
  rw [bind_of_error hdown] at hx
  cases hx

theorem completePipe_lost : NeedsLock (completePipe i pid thread) := by
  unfold completePipe
  apply createSemaphore_lost.bind
  intro _
  apply setPipe_lost.bind
  intro _
  exact allocatePages_lost.bind (fun _ => Spec.of_false)

theorem equipPipe_lost : NeedsLock (equipPipe i pid thread) := by
  unfold equipPipe
  apply createSemaphore_lost.bind
  intro _
  apply setPipe_lost.bind
  intro _
  exact setValue_lost.bind (fun _ => completePipe_lost)

/-- A creation that is in the way of a name loses the lock. -/
theorem createSemaphore_occupied (h : s.Rests) (ha : (s.kernel.mutexes adminMutex).value = unlocked)
    (hv : ¬ s.Vacant name) (hx : createSemaphore pid name thread s = .ok (r,s')) : s'.Lost := by
  obtain ⟨hroom,hfound⟩ := Classical.not_imp.mp hv
  obtain ⟨r₁,s₁,hcall,hc⟩ : ∃ r₁ s₁, createSemaphore pid name thread s = .ok (r₁,s₁) ∧ _ :=
    createSemaphore_creates h.guarded ha ((h.quiet ha).pop (by decide))
  rw [hx] at hcall
  cases hcall
  exact ⟨⟨hc.guarded,hc.leaked ⟨hroom,hfound⟩⟩,hc.buddyMutex.trans h.buddyMutex⟩

/-! ### A new pipe gets all that it asks for, or the call does not come back -/

structure Equipped (i : ℕ) (s s' : Registry) : Prop where
  rests : s'.Rests
  pipes : ∃ b w r m, (b = BuddyAllocator.null ∨ BuddyAllocator.InArena b) ∧
    s'.pipes = Function.update s.pipes i { s.pipes i with
      buffer := b
      semWrite := w
      semRead := r
      mutex := m }

theorem completePipe_vacant (h : s.Rests) (ha : (s.kernel.mutexes adminMutex).value = unlocked)
    (hv : s.Vacant (semReadName i)) :
    ∃ s', completePipe i pid thread s = .ok ((),s') ∧ Equipped i s s' := by
  obtain ⟨s₁,h₁,-,hq₁⟩ : ∃ s₁, createSemaphore pid (semReadName i) thread s = _ ∧ _ :=
    createSemaphore_vacant h ha hv
  obtain ⟨p₁,hp₁⟩ : ∃ p₁, setPipe i (fun p => { p with
      semRead := (registerSemaphore pid (semReadName i) thread s).1.getD semCreationError }) s₁ = p₁ :=
    ⟨_,rfl⟩
  have hr₁ : p₁.Rests := hp₁ ▸ (h.quietly hq₁).setPipe
  have ha₁ : (p₁.kernel.mutexes adminMutex).value = unlocked := by
    rw [← hp₁]
    exact (hq₁.value _).trans ha
  obtain ⟨a,s₂,h₂,hq₂,harena⟩ := allocatePage_quietly hr₁ ha₁
  obtain ⟨p₂,hp₂⟩ : ∃ p₂, setPipe i (fun p => { p with buffer := a }) s₂ = p₂ := ⟨_,rfl⟩
  have hr₂ : p₂.Rests := hp₂ ▸ (hr₁.quietly hq₂).setPipe
  have ha₂ : (p₂.kernel.mutexes adminMutex).value = unlocked := by
    rw [← hp₂]
    exact (hq₂.value _).trans ha₁
  obtain ⟨m,s₃,h₃,hr₃,hm₃⟩ : ∃ m s₃, getMutex (mutexName i) pid thread p₂ = .ok (m,s₃) ∧ _ :=
    getMutex_rests hr₂ ha₂
  refine ⟨setPipe i (fun p => { p with mutex := m.getD mutexCreationError }) s₃,?_,hr₃.setPipe,
    a,(s.pipes i).semWrite,(registerSemaphore pid (semReadName i) thread s).1.getD semCreationError,
    m.getD mutexCreationError,harena,?_⟩
  · unfold completePipe
    rw [bind_of_ok h₁,modify_bind,hp₁,bind_of_ok h₂,modify_bind,hp₂,bind_of_ok h₃]
    rfl
  · simp only [setPipe,hm₃,← hp₂,hq₂.pipes,← hp₁,hq₁.pipes,Function.update_self,Function.update_idem]

theorem completePipe_iff (h : s.Rests) (ha : (s.kernel.mutexes adminMutex).value = unlocked) :
    (∃ s', completePipe i pid thread s = .ok ((),s')) ↔ s.Vacant (semReadName i) := by
  refine ⟨fun ⟨s',hx⟩ => ?_,fun hv => ?_⟩
  · by_contra hv
    obtain ⟨r,s₁,h₁,hx⟩ := bind_ok.mp hx
    have hlost := createSemaphore_occupied h ha hv h₁
    have hrest : NeedsLock (modify (setPipe i (fun p => { p with semRead := r.getD semCreationError })) >>=
        fun _ => allocatePages pipePages >>= fun buffer =>
        modify (setPipe i (fun p => { p with buffer := buffer })) >>= fun _ =>
        getMutex (mutexName i) pid thread >>= fun mutex =>
        modify (setPipe i (fun p => { p with mutex := mutex.getD mutexCreationError }))) :=
      setPipe_lost.bind (fun _ => allocatePages_lost.bind (fun _ => Spec.of_false))
    exact hrest.ok s₁ _ s' hlost hx
  · obtain ⟨s',hx,-⟩ : ∃ s', completePipe i pid thread s = .ok ((),s') ∧ _ :=
      completePipe_vacant h ha hv
    exact ⟨s',hx⟩

/-- Up to the second semaphore. -/
theorem equipPipe_vacant (h : s.Rests) (ha : (s.kernel.mutexes adminMutex).value = unlocked)
    (hv : s.Vacant (semWriteName i)) : ∃ p w, p.Rests ∧
      (p.kernel.mutexes adminMutex).value = unlocked ∧
      p.pipes = Function.update s.pipes i { s.pipes i with semWrite := w } ∧
      (p.Vacant (semReadName i) ↔ PipeRoom pid thread i s) ∧
      equipPipe i pid thread s = completePipe i pid thread p := by
  obtain ⟨s₁,h₁,hl₁,hq₁⟩ : ∃ s₁, createSemaphore pid (semWriteName i) thread s = _ ∧ _ :=
    createSemaphore_vacant h ha hv
  generalize hx : registerSemaphore pid (semWriteName i) thread s = x at h₁ hl₁
  obtain ⟨p₁,hp₁⟩ : ∃ p₁, setPipe i (fun p => { p with semWrite := x.1.getD semCreationError }) s₁ =
    p₁ := ⟨_,rfl⟩
  have hr₁ : p₁.Rests := hp₁ ▸ (h.quietly hq₁).setPipe
  have ha₁ : (p₁.kernel.mutexes adminMutex).value = unlocked := by
    rw [← hp₁]
    exact (hq₁.value _).trans ha
  obtain ⟨hset,hq₂⟩ : setValue (x.1.getD semCreationError) pipeBufferLength p₁ = _ ∧ _ :=
    setValue_valued hr₁ ha₁
  refine ⟨_,x.1.getD semCreationError,hr₁.quietly hq₂,(hq₂.value _).trans ha₁,?_,?_,?_⟩
  · rw [hq₂.pipes,← hp₁]
    simp only [setPipe,hq₁.pipes]
  · have halike : Alike x.2 s₁ := hl₁.alike
    have halike₁ : Alike x.2 p₁ := by
      rw [← hp₁]
      exact ⟨halike.semaphores,halike.usedSemaphores,halike.creator,halike.name⟩
    unfold PipeRoom
    rw [hx,halike₁.valued.vacant]
    exact ⟨fun hy => ⟨hv,hy⟩,And.right⟩
  · unfold equipPipe
    rw [bind_of_ok h₁,modify_bind,hp₁,bind_of_ok hset]

/-- A slot is equipped as long as there is room for it. -/
theorem equipPipe_equips (h : s.Rests) (ha : (s.kernel.mutexes adminMutex).value = unlocked)
    (hroom : PipeRoom pid thread i s) :
    ∃ s', equipPipe i pid thread s = .ok ((),s') ∧ Equipped i s s' := by
  obtain ⟨p,w,hr,hp,hpipes,hiff,hcall⟩ : ∃ p w, _ := equipPipe_vacant h ha hroom.1
  obtain ⟨s',hx,hrests,b,w',r,m,hb,hs'⟩ : ∃ s', completePipe i pid thread p = .ok ((),s') ∧ _ :=
    completePipe_vacant hr hp (hiff.mpr hroom)
  refine ⟨s',hcall.trans hx,hrests,b,w',r,m,hb,?_⟩
  rw [hs',hpipes,Function.update_idem,Function.update_self]

theorem equipPipe_room (h : s.Rests) {u : Unit} (hx : equipPipe i pid thread s = .ok (u,s')) :
    (s.kernel.mutexes adminMutex).value = unlocked ∧ PipeRoom pid thread i s := by
  have hadmin : (s.kernel.mutexes adminMutex).value = unlocked := by
    apply (h.sound adminMutex (by decide)).open_value
    exact fun hl => equipPipe_lost.ok s u s' ⟨⟨h.guarded,hl⟩,h.buddyMutex⟩ hx
  have hv : s.Vacant (semWriteName i) := by
    by_contra hv
    obtain ⟨r,s₁,h₁,hx⟩ := bind_ok.mp hx
    have hlost := createSemaphore_occupied h hadmin hv h₁
    have hrest : NeedsLock (modify (setPipe i (fun p => { p with semWrite := r.getD semCreationError })) >>=
        fun _ => setValue (r.getD semCreationError) pipeBufferLength >>= fun _ =>
        completePipe i pid thread) :=
      setPipe_lost.bind (fun _ => setValue_lost.bind (fun _ => completePipe_lost))
    exact hrest.ok s₁ _ s' hlost hx
  obtain ⟨p,w,hr,hp,-,hiff,hcall⟩ : ∃ p w, p.Rests ∧ _ ∧ _ ∧ _ ∧
    equipPipe i pid thread s = completePipe i pid thread p := equipPipe_vacant h hadmin hv
  exact ⟨hadmin,hiff.mp ((completePipe_iff hr hp).mp ⟨s',hcall.symm.trans hx⟩)⟩

/-! ### Closing -/

theorem freeMemory_quietly (h : s.Rests) (ha : (s.kernel.mutexes adminMutex).value = unlocked) {a : ℕ}
    (hb : a = BuddyAllocator.null ∨ BuddyAllocator.InArena a) :
    ∃ b s', freeMemory a s = .ok (b,s') ∧ Quietly s s' := by
  have hrefl : Quietly s s :=
    ⟨⟨rfl,rfl,rfl⟩,h.guarded,fun _ => rfl,fun _ => rfl,fun _ => rfl,id,rfl⟩
  obtain rfl | hb := hb
  · exact ⟨false,s,freeMemory_unowned (BuddyAllocator.isAllocatedPage_null h.heap),hrefl⟩
  · obtain ⟨b,hpage⟩ := BuddyAllocator.isAllocatedPage_isSome h.heap hb
    cases b with
    | false => exact ⟨false,s,freeMemory_unowned hpage,hrefl⟩
    | true =>
      obtain ⟨r,x,hx,hok⟩ : ∃ r x, BuddyAllocator.freeMemory a s.heap = some (r,x) ∧
          BuddyAllocator.HeapOk x := by
        obtain ⟨hx,-⟩ | ⟨x,n,hx,-,-,-,-,hrel⟩ := BuddyAllocator.freeMemory_spec h.heap hb
        · exact ⟨_,_,hx,h.heap⟩
        · exact ⟨_,_,hx,hrel.ok⟩
      have hvalid := h.guarded.valid (m := adminMutex) (by decide) (by decide)
      have hdown : mutexDown s.buddyMutex s.kernel.caller s = _ :=
        (congrArg (fun m => mutexDown m s.kernel.caller s) h.buddyMutex).trans
          (mutexDown_free hvalid (h.open_value ha (by decide)))
      have hup : mutexUp s.buddyMutex s.kernel.caller { s with
          kernel := s.kernel.take adminMutex s.kernel.caller, heap := x } = _ :=
        (congrArg (fun m => mutexUp m s.kernel.caller _) h.buddyMutex).trans
          (mutexUp_free rfl hvalid ((h.quiet ha).pop (by decide)))
      have hcycle : Quietly s { s with kernel := s.kernel.cycle adminMutex s.kernel.caller } :=
        cycle_quietly h.guarded ha
      exact ⟨true,_,freeMemory_owned hpage hdown hx hup,⟨rfl,rfl,rfl⟩,hcycle.guarded,hcycle.list,
        hcycle.value,hcycle.waiters,fun _ => hok,rfl⟩

/-- A release takes the creator from the slot, and that is all where nobody waits. -/
theorem releaseMutex_quietly (hq : s.kernel.Quiet)
    (ha : (s.kernel.mutexes adminMutex).value = unlocked) (hpid : 0 < pid) :
    ∃ b s', releaseMutex pid m thread s = .ok (b,s') ∧ Quietly s s' ∧
      s'.kernel.mutexes 1 = s.kernel.mutexes 1 := by
  obtain ⟨b,k,hb⟩ : ∃ b k, s.kernel.releaseMutexBody m ⟨pid,thread⟩ = some (b,k) :=
    ⟨_,_,hq.releaseMutexBody⟩
  have hcall := releaseMutex_guarded hq.guarded (by rw [ha]; decide) (hq.pop (by decide)) hpid hb
  have hslot : (∀ i, (k.mutexes i).list = (s.kernel.mutexes i).list ∧
      (k.mutexes i).value = (s.kernel.mutexes i).value) ∧ k.semaphores = s.kernel.semaphores ∧
      k.mutexes 1 = s.kernel.mutexes 1 := by
    obtain ⟨-,-,rfl⟩ | ⟨-,hv,hc,hr,x,hm,-,-,hval,-,-,hidle⟩ := releaseMutexBody_cases hb
    · exact ⟨fun _ => ⟨rfl,rfl⟩,rfl,rfl⟩
    · have hlist := (hidle (by rw [hq.idle m ⟨hv.1,hv.2.1⟩]; decide)).2
      refine ⟨fun i => ?_,hr.semaphores,?_⟩
      · rw [hm]
        by_cases he : i = m
        · rw [he,Function.update_self]
          exact ⟨hlist,hval⟩
        · rw [Function.update_of_ne he]
          exact ⟨rfl,rfl⟩
      · have hne : 1 ≠ m := fun he =>
          hq.guarded.creator_ne (i := 1) (by decide) (by decide) hpid (he ▸ hc)
        rw [hm,Function.update_of_ne hne]
  have hg := hq.guarded.releaseMutexBody hpid hb
  have hquiet : Quietly s { s with kernel := k } :=
    ⟨⟨rfl,rfl,rfl⟩,hg,fun i => (hslot.1 i).1,fun i => (hslot.1 i).2,fun i => by rw [hslot.2.1],id,rfl⟩
  refine ⟨_,_,hcall,hquiet.trans (lockSlot_quietly hg ?_ rfl),?_⟩
  · exact ((hslot.1 _).2).trans ha
  · exact (lockSlot_of_ne (by decide)).trans hslot.2.2

theorem releaseSemaphore_quietly (h : s.Rests)
    (ha : (s.kernel.mutexes adminMutex).value = unlocked) (hpid : 0 < pid) :
    ∃ b s', releaseSemaphore pid semaphore thread s = .ok (b,s') ∧ Quietly s s' := by
  have hopen := h.open_value ha (m := 1) (by decide)
  have hunlocked := (h.sound 1 (by decide)).open_value hopen
  have hdown := semaphoreMutex_down (t := ⟨pid,thread⟩) h.guarded h.semaphoreMutex hopen
  obtain ⟨s₁,hs₁⟩ : ∃ s₁, { s with kernel := s.kernel.lockSlot 1 locked ⟨pid,thread⟩ } = s₁ := ⟨_,rfl⟩
  rw [hs₁] at hdown
  have hq₁ : s₁.kernel.Quiet := by
    rw [← hs₁]
    exact (h.quiet ha).lockSlot
  have ha₁ : (s₁.kernel.mutexes adminMutex).value = unlocked := by
    rw [← hs₁]
    exact (congrArg Mutex.value (lockSlot_of_ne (by decide))).trans ha
  obtain ⟨b,s₂,hbody,hq₂,hslot⟩ : ∃ b s₂, releaseSemaphoreBody semaphore ⟨pid,thread⟩ s₁ =
      .ok (b,s₂) ∧ Quietly s₁ s₂ ∧ s₂.kernel.mutexes 1 = s₁.kernel.mutexes 1 := by
    unfold releaseSemaphoreBody
    rw [get_bind]
    split
    · rename_i hv
      obtain ⟨b,s₂,hcall,hq₂,hslot⟩ : ∃ b s₂, releaseMutex pid (s₁.kernel.semaphores semaphore).mutex
          thread s₁ = .ok (b,s₂) ∧ _ := releaseMutex_quietly hq₁ ha₁ hpid
      have hidle : unlockAllSemaphore semaphore maxBlocked (s₂.kernel.disownSemaphore semaphore) =
          some (s₂.kernel.disownSemaphore semaphore) := by
        apply unlockAllSemaphore_idle
        show ((s₂.kernel.setSemaphore semaphore _).semaphores semaphore).list.blockedQuantity = 0
        rw [setSemaphore_semaphores_self]
        show (s₂.kernel.semaphores semaphore).list.blockedQuantity = 0
        rw [hq₂.waiters,← hs₁]
        exact h.waiters _ ⟨hv.1.1,hv.1.2.1⟩
      refine ⟨true,{ s₂ with kernel := s₂.kernel.disownSemaphore semaphore },?_,
        hq₂.trans ⟨⟨rfl,rfl,rfl⟩,hq₂.guarded.congr (fun _ _ _ => rfl) rfl,fun _ => rfl,fun _ => rfl,
          fun _ => setSemaphore_list rfl,id,rfl⟩,hslot⟩
      rw [bind_of_ok hcall,modify_bind,bind_of_ok (a := ()) (piece_ok.mpr ⟨_,hidle,rfl⟩)]
      rfl
    · exact ⟨false,s₁,rfl,⟨⟨rfl,rfl,rfl⟩,hq₁.guarded,fun _ => rfl,fun _ => rfl,fun _ => rfl,id,rfl⟩,rfl⟩
  have hself : s₁.kernel.mutexes 1 = { s.kernel.mutexes 1 with
      value := locked, lockProcess := ⟨pid,thread⟩ } := by
    rw [← hs₁]
    exact lockSlot_self
  have hup := mutexUp_held (m := 1) (t := ⟨pid,thread⟩) hq₂.guarded (by decide) (by decide)
    (by rw [hslot,hself]) (by rw [hslot,hself]; exact (h.quiet ha).pop (by decide))
  refine ⟨b,{ s₂ with kernel := s₂.kernel.lockSlot 1 unlocked ⟨pid,thread⟩ },?_,?_⟩
  · have hlast : mutexUp s.semaphoreMutex ⟨pid,thread⟩ s₂ =
        .ok ((),{ s₂ with kernel := s₂.kernel.lockSlot 1 unlocked ⟨pid,thread⟩ }) :=
      mutexUp_ok.mpr ⟨_,(congrArg (fun m => s₂.kernel.mutexUp m _) h.semaphoreMutex).trans hup,rfl⟩
    unfold releaseSemaphore
    rw [get_bind,bind_of_ok hdown,bind_of_ok hbody,bind_of_ok hlast]
    rfl
  · subst hs₁
    refine ⟨⟨hq₂.semaphoreMutex,hq₂.buddyMutex,hq₂.channelMutex⟩,hq₂.guarded.lockSlot,fun i => ?_,
      fun i => ?_,hq₂.waiters,hq₂.heap,hq₂.pipes⟩
    · exact lockSlot_list.trans ((hq₂.list i).trans lockSlot_list)
    · show ((s₂.kernel.lockSlot 1 unlocked _).mutexes i).value = _
      by_cases he : i = 1
      · rw [he,lockSlot_self,hunlocked]
      · rw [lockSlot_of_ne he,hq₂.value]
        exact congrArg Mutex.value (lockSlot_of_ne he)

/-- What makes a descriptor close. -/
theorem deletePipe_frees {pipe : ℤ} (h : s.Rests)
    (ha : (s.kernel.mutexes adminMutex).value = unlocked) (hpid : 0 < pid)
    (hv : s.isValidPipe pipe) (hc : (s.pipes pipe.toNat).creator = ⟨pid,thread⟩)
    (hb : (s.pipes pipe.toNat).buffer = BuddyAllocator.null ∨
      BuddyAllocator.InArena (s.pipes pipe.toNat).buffer) :
    ∃ s', deletePipe pipe pid thread s = .ok (0,s') ∧ s'.Rests ∧
      (s'.kernel.mutexes adminMutex).value = unlocked ∧
      s'.pipes = Function.update s.pipes pipe.toNat { s.pipes pipe.toNat with used := false } := by
  obtain ⟨b₁,s₁,h₁,hq₁⟩ := freeMemory_quietly h ha hb
  have hr₁ := h.quietly hq₁
  have ha₁ := (hq₁.value adminMutex).trans ha
  obtain ⟨b₂,s₂,h₂,hq₂,-⟩ : ∃ b s₂, releaseMutex pid (s.pipes pipe.toNat).mutex thread s₁ =
      .ok (b,s₂) ∧ _ := releaseMutex_quietly (hr₁.quiet ha₁) ha₁ hpid
  have hr₂ := hr₁.quietly hq₂
  have ha₂ := (hq₂.value adminMutex).trans ha₁
  obtain ⟨b₃,s₃,h₃,hq₃⟩ : ∃ b s₃, releaseSemaphore pid (s.pipes pipe.toNat).semWrite thread s₂ =
      .ok (b,s₃) ∧ _ := releaseSemaphore_quietly hr₂ ha₂ hpid
  have hr₃ := hr₂.quietly hq₃
  have ha₃ := (hq₃.value adminMutex).trans ha₂
  obtain ⟨b₄,s₄,h₄,hq₄⟩ : ∃ b s₄, releaseSemaphore pid (s.pipes pipe.toNat).semRead thread s₃ =
      .ok (b,s₄) ∧ _ := releaseSemaphore_quietly hr₃ ha₃ hpid
  have hr₄ := hr₃.quietly hq₄
  have hpipes : s₄.pipes = s.pipes := (((hq₁.trans hq₂).trans hq₃).trans hq₄).pipes
  obtain ⟨p,hp⟩ : ∃ p, { s.pipes pipe.toNat with used := false } = p := ⟨_,rfl⟩
  rw [hp]
  refine ⟨{ s₄ with pipes := Function.update s₄.pipes pipe.toNat p },?_,
    ⟨hr₄.guarded,hr₄.sound,hr₄.opened,hr₄.waiters,hr₄.semaphoreMutex,hr₄.buddyMutex,hr₄.heap⟩,
    (hq₄.value adminMutex).trans ha₃,?_⟩
  · unfold deletePipe
    rw [get_bind,if_pos ⟨hv,hc⟩,bind_of_ok h₁,hc,bind_of_ok h₂,bind_of_ok h₃,bind_of_ok h₄,modify_bind,
      ← hc]
    subst hp
    rfl
  · rw [hpipes]

theorem freeMemory_lost {a : ℕ} : StaysLost (freeMemory a) := by
  refine ⟨fun s b s' h hx => ?_,fun _ _ _ _ => trivial⟩
  unfold freeMemory at hx
  rw [get_bind] at hx
  cases hpage : BuddyAllocator.isAllocatedPage s.heap a with
  | none =>
    simp only [hpage] at hx
    cases hx
  | some allocated =>
    cases allocated with
    | false =>
      simp only [hpage] at hx
      cases hx
      exact h
    | true =>
      simp only [hpage] at hx
      have hwait : mutexDown s.buddyMutex s.kernel.caller s = _ :=
        (congrArg (fun m => mutexDown m s.kernel.caller s) h.2).trans
          (mutexDown_waits (h.1.1.valid (m := adminMutex) (by decide) (by decide)) h.1.2)
      rw [bind_of_error hwait] at hx
      cases hx

theorem releaseMutex_lost : NeedsLock (releaseMutex pid m thread) := by
  refine ⟨fun s b s' h hx => ?_,fun _ _ _ _ => trivial⟩
  have hwait := mutexDown_waits (t := ⟨pid,thread⟩)
    (h.1.1.valid (m := adminMutex) (by decide) (by decide)) h.1.2
  unfold releaseMutex at hx
  rw [bind_of_error hwait] at hx
  cases hx

/-- A pipe is not closed without the lock. -/
theorem deletePipe_lost {pipe a : ℤ} (h : s.Lost) (hv : s.isValidPipe pipe)
    (hc : (s.pipes pipe.toNat).creator = ⟨pid,thread⟩) :
    deletePipe pipe pid thread s ≠ .ok (a,s') := by
  intro hx
  unfold deletePipe at hx
  rw [get_bind,if_pos ⟨hv,hc⟩] at hx
  obtain ⟨b,s₁,h₁,hx⟩ := bind_ok.mp hx
  obtain ⟨c,s₂,h₂,-⟩ := bind_ok.mp hx
  exact releaseMutex_lost.ok s₁ c s₂ (freeMemory_lost.ok s b s₁ h h₁) h₂

end Registry
end ComplexOS
