import ComplexOS.Kernel.WholeCalls
import ComplexOS.Userland.ProdCons

/-! # Producers and consumers over the kernel

The counters and the lock of the program are two semaphores and a mutex of the kernel. What
holds over the ones holds over the others, and every run over the ones is a run over the
others.
-/
namespace ComplexOS
namespace ProdCons
variable {s s' : ProdCons} {w : Worker} {a a' : Atomic.Objects ℤ ℤ ThreadId} {i : ℕ}
  {stock : List UInt8} {l : ProdConsStep} {ls : List ProdConsStep} {main : ThreadId}
  {bufferMutex emptySem producedSem : ℤ} {buffer : ℤ → UInt8} {o : ObjectSet} {T : Finset ThreadId}

structure Placed (o : ObjectSet) (T : Finset ThreadId) (s : ProdCons) : Prop where
  bufferMutex : s.bufferMutex ∈ o.mutexes
  emptySem : s.emptySem ∈ o.semaphores
  producedSem : s.producedSem ∈ o.semaphores
  main : s.main ∈ T
  workers : ∀ w ∈ s.workers, w.thread ∈ T

def Hires (T : Finset ThreadId) : ProdConsStep → Prop
  | .create pid _ => ⟨pid,0⟩ ∈ T
  | _ => True

instance (T : Finset ThreadId) : ∀ l, Decidable (Hires T l)
  | .create pid _ => inferInstanceAs (Decidable (⟨pid,0⟩ ∈ T))
  | .signal | .refused _ _ | .remove _ _ | .statement _ | .kill _ _ => isTrue trivial

theorem Placed.controls (h : Placed o T s) (hc : Controls s s') : Placed o T s' := by
  obtain ⟨pi,pp,ci,cp,rfl⟩ := hc
  exact ⟨h.bufferMutex,h.emptySem,h.producedSem,h.main,h.workers⟩

theorem Placed.kill (h : Placed o T s) : Placed o T (s.kill w i) :=
  ⟨h.bufferMutex,h.emptySem,h.producedSem,h.main,
    fun v hv => h.workers v ((List.eraseIdx_sublist s.workers i).subset hv)⟩

theorem step_placed (h : Placed o T s) (hl : Hires T l) (hs : step s l = some s') :
    Placed o T s' := by
  cases l with
  | signal =>
    obtain ⟨-,hs⟩ := Option.ite_none_right_eq_some.mp hs
    obtain rfl := Option.some.inj hs
    exact ⟨h.bufferMutex,h.emptySem,h.producedSem,h.main,h.workers⟩
  | create pid produces =>
    obtain ⟨-,hs⟩ := Option.ite_none_right_eq_some.mp hs
    obtain ⟨s₁,hs₁,rfl⟩ := Option.map_eq_some_iff.mp hs
    have h₁ := h.controls (record_controls hs₁)
    refine ⟨h₁.bufferMutex,h₁.emptySem,h₁.producedSem,h₁.main,fun w hw => ?_⟩
    rcases List.mem_append.mp hw with hw | hw
    · exact h₁.workers w hw
    · rw [List.mem_singleton.mp hw]
      exact hl
  | refused ret produces =>
    obtain ⟨-,hs⟩ := Option.ite_none_right_eq_some.mp hs
    exact h.controls (record_controls hs)
  | remove produces granted =>
    have h₁ : Placed o T _ := h.controls (withdraw_controls produces)
    simp only [step] at hs
    split at hs
    · obtain ⟨w,v,-,rfl,-⟩ := killAt_some hs
      exact h₁.kill
    · obtain ⟨-,hs⟩ := Option.ite_none_left_eq_some.mp hs
      obtain rfl := Option.some.inj hs
      exact h₁
  | statement i =>
    obtain ⟨w,hi,hs⟩ := Option.bind_eq_some_iff.mp hs
    obtain ⟨⟨s₁,w'⟩,hst,rfl⟩ := Option.map_eq_some_iff.mp hs
    have hst := statement_steady hst
    refine ⟨hst.bufferMutex ▸ h.bufferMutex,hst.emptySem ▸ h.emptySem,
      hst.producedSem ▸ h.producedSem,hst.main ▸ h.main,fun v hv => ?_⟩
    rcases List.mem_or_eq_of_mem_set hv with hv | rfl
    · exact h.workers v hv
    · rw [hst.thread]
      exact h.workers w (List.mem_of_getElem? hi)
  | kill i granted =>
    obtain ⟨w,v,-,rfl,-⟩ := killAt_some hs
    exact h.kill

/-- There are never more than five permits. -/
theorem Ok.permits_lt (h : Ok s a stock) :
    (a.permits s.emptySem : ℤ) < maxInt ∧ (a.permits s.producedSem : ℤ) < maxInt := by
  have hempty := h.empty
  have hproduced := h.produced
  have hsig := h.signalled
  have hmax : (maxBuffer : ℤ) < maxInt := by decide
  constructor <;> omega

theorem Ok.operation_allowed (h : Ok s a stock) (hp : Placed o T s) (hw : w ∈ s.workers)
    {e : Atomic.Operation ℤ ℤ} (he : s.operation w = some e) :
    ObjectRun.Allowed o T a (w.thread,e) := by
  obtain ⟨hempty,hproduced⟩ := h.permits_lt
  refine ⟨hp.workers w hw,?_⟩
  rw [operation] at he
  split at he <;> cases he
  · show (if w.produces then s.emptySem else s.producedSem) ∈ o.semaphores
    split
    · exact hp.emptySem
    · exact hp.producedSem
  · exact hp.bufferMutex
  · exact hp.bufferMutex
  · show (if w.produces then s.producedSem else s.emptySem) ∈ o.semaphores ∧ _
    split
    · exact ⟨hp.producedSem,hproduced⟩
    · exact ⟨hp.emptySem,hempty⟩

theorem along_toList {x : Option (ThreadId × Atomic.Operation ℤ ℤ)}
    (h : ∀ e, x = some e → ObjectRun.Allowed o T a e) :
    Runs.Along Atomic.step (ObjectRun.Allowed o T) a x.toList := by
  cases x with
  | none => exact trivial
  | some e => exact ⟨h e rfl,fun _ _ => trivial⟩

theorem Ok.grants_allowed (h : Ok s a stock) (hp : Placed o T s) {granted : Bool} :
    Runs.Along Atomic.step (ObjectRun.Allowed o T) a (s.grants i granted) := by
  refine along_toList (fun e he => ?_)
  obtain ⟨w,hi,he⟩ := Option.bind_eq_some_iff.mp he
  split at he
  · obtain ⟨x,hx,rfl⟩ := Option.map_eq_some_iff.mp he
    exact h.operation_allowed hp (List.mem_of_getElem? hi) hx
  · cases he

theorem Ok.shows_allowed (h : Ok s a stock) (hp : Placed o T s) :
    Runs.Along Atomic.step (ObjectRun.Allowed o T) a (s.shows l) := by
  cases l with
  | signal => exact ⟨⟨hp.main,hp.emptySem,h.permits_lt.1⟩,fun _ _ => trivial⟩
  | create pid produces => exact trivial
  | refused ret produces => exact trivial
  | remove produces granted =>
    rw [shows]
    cases s.victim produces with
    | none => exact trivial
    | some i => exact h.grants_allowed hp
  | statement i =>
    refine along_toList (fun e he => ?_)
    obtain ⟨w,hi,he⟩ := Option.bind_eq_some_iff.mp he
    obtain ⟨x,hx,rfl⟩ := Option.map_eq_some_iff.mp he
    exact h.operation_allowed hp (List.mem_of_getElem? hi) hx
  | kill i granted => exact h.grants_allowed hp

/-- Whatever the program calls may be called. -/
theorem run_allowed (h : ∃ stock, Ok s a stock) (hp : Placed o T s) (hl : ∀ l ∈ ls, Hires T l)
    (hr : Runs.run system (s,a) ls = some (s',a')) :
    Runs.Along Atomic.step (ObjectRun.Allowed o T) a (Runs.shown step shows s ls) := by
  induction ls generalizing s a with
  | nil => exact trivial
  | cons l ls ih =>
    obtain ⟨⟨t,b⟩,ht,hr⟩ := Runs.run_cons.mp hr
    obtain ⟨stock,hok⟩ := h
    obtain ⟨hst,hb⟩ := Runs.drive_eq_some.mp ht
    rw [Runs.shown_cons hst]
    refine (hok.shows_allowed hp).append hb ?_
    exact ih (step_ok ⟨stock,hok⟩ ht) (step_placed hp (hl l List.mem_cons_self) hst)
      (fun l' h' => hl l' (List.mem_cons_of_mem _ h')) hr

/-- Some run of the kernel has the calls of the program, and its tables hold what the counters
and the lock do. -/
def Realized (o : ObjectSet) (k : Kernel) (s : ProdCons) (ls : List ProdConsStep)
    (a : Atomic.Objects ℤ ℤ ThreadId) : Prop :=
  ∃ ks r, Runs.run (ObjectRun.step o) (ObjectRun.start k) ks = some r ∧
    Runs.shown step shows s ls =
      Runs.shown (ObjectRun.step o) ObjectRun.shows (ObjectRun.start k) ks ∧ r.Agrees o a

/-- Every run of the program is one over the kernel. -/
theorem run_realized {k : Kernel} (hk : ObjectRun.Starts o (fun _ => 0) k)
    (hT : ObjectRun.Staffed T k) (hne : emptySem ≠ producedSem)
    (hp : Placed o T (start main bufferMutex emptySem producedSem buffer))
    (hl : ∀ l ∈ ls, Hires T l)
    (hr : Runs.run system (start main bufferMutex emptySem producedSem buffer,
      ⟨fun _ => 0,fun _ => none⟩) ls = some (s,a)) :
    Realized o k (start main bufferMutex emptySem producedSem buffer) ls a := by
  obtain ⟨-,ha⟩ := Runs.run_drive.mp hr
  have hes := run_allowed ⟨[],start_ok hne⟩ hp hl hr
  obtain ⟨ks,r,hks,hshown,hagrees⟩ := ObjectRun.run_completed hk hT hes ha
  exact ⟨ks,r,hks,hshown.symm,hagrees⟩

/-- The program over the kernel: the calls of the one are those that come back in the other. -/
theorem run_law {k : Kernel} {ks : List ObjectStep} {r : ObjectRun}
    (hk : ObjectRun.Starts o (fun _ => 0) k) (hne : emptySem ≠ producedSem)
    (hks : Runs.run (ObjectRun.step o) (ObjectRun.start k) ks = some r)
    (hs : Runs.run step (start main bufferMutex emptySem producedSem buffer) ls = some s)
    (hcalls : Runs.shown step shows (start main bufferMutex emptySem producedSem buffer) ls =
      Runs.shown (ObjectRun.step o) ObjectRun.shows (ObjectRun.start k) ks) : s.Law := by
  obtain ⟨a,ha,-⟩ := ObjectRun.run_implements hk hks
  rw [← hcalls] at ha
  obtain ⟨stock,h⟩ := run_ok hne (Runs.run_drive.mpr ⟨hs,ha⟩)
  exact h.law

def fourProcesses : ℤ → Option Process := fun pid =>
  if pid = 1 ∨ pid = 2 ∨ pid = 3 ∨ pid = 4 then some
    { ppid := 0, currentThread := 0, address := 0
      threads := fun i => if i = 0 then
        some ⟨if pid = 1 then .running else .ready,notWaiting,0⟩ else none }
  else none

def prodConsKernel : Kernel :=
  let k := (Kernel.createMutex { MutexRun.clearedKernel with processes := fourProcesses } 1 [109] 0).2
  let k := (Kernel.createMutex { k with firstAvailableMutex := 2 } 1 [110] 0).2
  let k := (Kernel.createMutex { k with firstAvailableMutex := 3 } 1 [111] 0).2
  (k.setSemaphore 0 ⟨⟨1,0⟩,fun _ => 0,BlockedList.empty,0,1⟩).setSemaphore 1
    ⟨⟨1,0⟩,fun _ => 0,BlockedList.empty,0,2⟩

theorem prodConsKernel_starts : ObjectRun.Starts ⟨{3},{0,1}⟩ (fun _ => 0) prodConsKernel := by
  refine ⟨fun i hi => ?_,fun i hi => ?_,fun i hi j hj => ?_,fun i hi => ?_⟩
  · obtain rfl := Finset.mem_singleton.mp hi
    exact ⟨by decide,rfl,Mutex.clear_list _⟩
  · rcases Finset.mem_insert.mp hi with rfl | hi
    · exact ⟨by decide,rfl,BlockedList.empty_holds,by decide,rfl,Mutex.clear_list _⟩
    · obtain rfl := Finset.mem_singleton.mp hi
      exact ⟨by decide,rfl,BlockedList.empty_holds,by decide,rfl,Mutex.clear_list _⟩
  · rcases Finset.mem_insert.mp hi with rfl | hi <;> rcases Finset.mem_insert.mp hj with rfl | hj <;>
      simp only [Finset.mem_singleton] at hi hj <;> subst_vars <;> decide
  · rcases Finset.mem_insert.mp hi with rfl | hi
    · decide
    · obtain rfl := Finset.mem_singleton.mp hi
      decide

def fourThreads : Finset ThreadId := {⟨1,0⟩,⟨2,0⟩,⟨3,0⟩,⟨4,0⟩}

theorem prodConsKernel_staffed : ObjectRun.Staffed fourThreads prodConsKernel := by
  constructor <;> decide

theorem start_placed : Placed ⟨{3},{0,1}⟩ fourThreads (start ⟨1,0⟩ 3 0 1 (fun _ => 0)) :=
  ⟨by decide,by decide,by decide,by decide,by simp [start]⟩

def itemSteps : List ProdConsStep :=
  List.replicate 5 .signal++[.create 2 true,.create 3 false]++List.replicate 7 (.statement 0)++
    List.replicate 8 (.statement 1)

theorem run_law_item : ∃ s, Runs.run step (start ⟨1,0⟩ 3 0 1 (fun _ => 0)) itemSteps = some s ∧
    s.moves = [.put 97,.take 97] ∧ s.Law := by
  have hitem : (Runs.run system (start ⟨1,0⟩ 3 0 1 (fun _ => 0),⟨fun _ => 0,fun _ => none⟩)
      itemSteps).map (fun x => x.1.moves) = some [.put 97,.take 97] := by decide +kernel
  obtain ⟨⟨s,a⟩,hr,hm⟩ := Option.map_eq_some_iff.mp hitem
  have hhires : ∀ l ∈ itemSteps, Hires fourThreads l := by decide
  obtain ⟨ks,r,hks,hcalls,-⟩ := run_realized prodConsKernel_starts prodConsKernel_staffed
    (by decide) start_placed hhires hr
  exact ⟨s,(Runs.run_drive.mp hr).1,hm,run_law prodConsKernel_starts (by decide) hks
    (Runs.run_drive.mp hr).1 hcalls⟩

end ProdCons
end ComplexOS
