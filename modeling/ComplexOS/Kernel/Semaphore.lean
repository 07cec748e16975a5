import ComplexOS.Kernel.Mutex

/-! # The kernel semaphore

`semaphore.c`. A call of `wait` or `signal` is three parts: `mutexDown` on the
semaphore's own mutex, the body given here, and `mutexUp` on that mutex.
-/
namespace ComplexOS
namespace Kernel
variable (k : Kernel) (semaphore : ℤ) (t : ThreadId)

def isValidSemaphore : Prop :=
  0 ≤ semaphore ∧ semaphore < maxSemaphores ∧ (k.semaphores semaphore).creator.pid ≠ notUsed

instance : Decidable (k.isValidSemaphore semaphore) :=
  inferInstanceAs (Decidable (0 ≤ semaphore ∧ semaphore < maxSemaphores ∧ _))

def addToSemaphoreBlocked : Option Kernel :=
  let s := k.semaphores semaphore
  (s.list.add t).map (fun l => k.setSemaphore semaphore { s with list := l })

/-- `wait` between its two mutex calls. After `queued` and `full` the final `mutexUp`
is followed by a yield, and `killThread` comes before it when the list was full. -/
def waitBody : Option (DownOutcome × Kernel) :=
  let s := k.semaphores semaphore
  (decrement s.value).bind (fun value =>
    let k := k.setSemaphore semaphore { s with value := value }
    if value < 0 then
      match k.addToSemaphoreBlocked semaphore t with
      | some k => (k.changeThreadState t .blocked).map (fun k => (.queued,k))
      | none => some (.full,k)
    else some (.returned,k))

def unlockSemaphoreProcess : Option (Bool × Kernel) :=
  let s := k.semaphores semaphore
  match s.list.pop with
  | none => some (false,k)
  | some (w,l) =>
    ((k.setSemaphore semaphore { s with list := l }).changeThreadState w .ready).map
      (fun k => (true,k))

/-- `signal` between its two mutex calls: the wake-up comes before the increment. -/
def signalBody : Option Kernel :=
  (k.unlockSemaphoreProcess semaphore).bind (fun (_,k) =>
    let s := k.semaphores semaphore
    (increment s.value).map (fun value => k.setSemaphore semaphore { s with value := value }))

variable {k semaphore t}

theorem decrement_eq {v : ℤ} (h : -maxInt-1 < v) : decrement v = some (v-1) := if_pos h

theorem waitBody_free (hlo : -maxInt-1 < (k.semaphores semaphore).value)
    (hpos : 0 < (k.semaphores semaphore).value) :
    k.waitBody semaphore t = some (.returned,k.setSemaphore semaphore
      { k.semaphores semaphore with value := (k.semaphores semaphore).value-1 }) := by
  simp only [waitBody,decrement_eq hlo,Option.bind_some]
  rw [if_neg (by omega)]

theorem waitBody_queued (hlo : -maxInt-1 < (k.semaphores semaphore).value)
    (hneg : (k.semaphores semaphore).value ≤ 0) (ht : Processes.Real k.processes t)
    {l : BlockedList} (ha : (k.semaphores semaphore).list.add t = some l) :
    ∃ k', k.waitBody semaphore t = some (.queued,k') ∧
      k'.semaphores semaphore = { k.semaphores semaphore with
        value := (k.semaphores semaphore).value-1, list := l } ∧
      k'.processes = Processes.setThreadState k.processes t .blocked ∧
      k'.current = k.current ∧ k'.mutexes = k.mutexes := by
  let k₀ := k.setSemaphore semaphore
    { k.semaphores semaphore with value := (k.semaphores semaphore).value-1 }
  let k₁ := k₀.setSemaphore semaphore { k₀.semaphores semaphore with list := l }
  have hadd : k₀.addToSemaphoreBlocked semaphore t = some k₁ := by
    simp [k₀,k₁,addToSemaphoreBlocked,ha]
  have hreal : Processes.Real k₁.processes t := ht
  refine ⟨{ k₁ with processes := Processes.setThreadState k.processes t .blocked },
    ?_,by simp [k₁,k₀],rfl,rfl,rfl⟩
  simp only [waitBody,decrement_eq hlo,Option.bind_some]
  rw [if_pos (by omega),hadd]
  simp only [changeThreadState_real hreal,Option.map_some]
  rfl

/-- With nobody queued a signal only counts. -/
theorem signalBody_empty (hhi : (k.semaphores semaphore).value < maxInt)
    (hp : (k.semaphores semaphore).list.pop = none) :
    k.signalBody semaphore = some (k.setSemaphore semaphore
      { k.semaphores semaphore with value := (k.semaphores semaphore).value+1 }) := by
  simp only [signalBody,unlockSemaphoreProcess,hp,Option.bind_some,increment,if_pos hhi,
    Option.map_some]

theorem signalBody_wake (hhi : (k.semaphores semaphore).value < maxInt) {w : ThreadId}
    {l : BlockedList} (hw : Processes.Real k.processes w)
    (hp : (k.semaphores semaphore).list.pop = some (w,l)) :
    ∃ k', k.signalBody semaphore = some k' ∧
      k'.semaphores semaphore = { k.semaphores semaphore with
        value := (k.semaphores semaphore).value+1, list := l } ∧
      k'.processes = Processes.setThreadState k.processes w .ready ∧
      k'.current = k.current ∧ k'.mutexes = k.mutexes := by
  let k₀ := k.setSemaphore semaphore { k.semaphores semaphore with list := l }
  let k₁ : Kernel := { k₀ with processes := Processes.setThreadState k.processes w .ready }
  have hreal : Processes.Real k₀.processes w := hw
  have hunlock : k.unlockSemaphoreProcess semaphore = some (true,k₁) := by
    simp only [unlockSemaphoreProcess,hp]
    rw [changeThreadState_real hreal]
    rfl
  have hs : k₁.semaphores semaphore = { k.semaphores semaphore with list := l } := by
    simp [k₁,k₀]
  refine ⟨k₁.setSemaphore semaphore { k.semaphores semaphore with
    value := (k.semaphores semaphore).value+1, list := l },?_,by simp,rfl,rfl,rfl⟩
  simp only [signalBody,hunlock,Option.bind_some,hs,increment,if_pos hhi,Option.map_some]

/-- At the largest `int` the increment overflows. -/
theorem signalBody_overflow (hhi : ¬ (k.semaphores semaphore).value < maxInt)
    {k' : Kernel} : k.signalBody semaphore ≠ some k' := by
  intro h
  simp only [signalBody,unlockSemaphoreProcess] at h
  split at h
  · simp [increment,hhi] at h
  · rename_i w l hp
    simp only [changeThreadState,Option.map_map,Option.bind_eq_some_iff,Option.map_eq_some_iff]
      at h
    obtain ⟨x,⟨ps,-,rfl⟩,v,hv,-⟩ := h
    simp [increment,hhi] at hv

end Kernel
end ComplexOS
