import ComplexOS.Kernel.BlockedList
import ComplexOS.Library.SlotChains

/-! # The sleep list

`timer.c`: sleepers form a linked list inside a static array, the newest first. The
state is the file's statics together with the process table, whose thread states the
functions change. The array is a function on all of `ℤ`, indexed without a check as
in the source.
-/
namespace ComplexOS

def maxSleeping : ℕ := 64

structure SleepingThread where
  id : ThreadId
  tickQuantity : ℕ
  next : ℤ

structure Timer where
  sleepingProcesses : ℤ → SleepingThread
  firstAvailableSpace : ℤ
  sleeping : ℕ
  first : ℤ
  processes : ℤ → Option Process

namespace Timer
variable (T : Timer) (t : ThreadId)

def setEntry (i : ℤ) (e : SleepingThread) : Timer :=
  { T with sleepingProcesses := Function.update T.sleepingProcesses i e }

def changeThreadState (st : ProcessState) : Option Timer :=
  (Processes.changeThreadState T.processes t st).map (fun ps => { T with processes := ps })

def initializeTimer (ps : ℤ → Option Process) : Timer where
  sleepingProcesses := fun _ => ⟨⟨notUsed,0⟩,0,0⟩
  firstAvailableSpace := 0
  sleeping := 0
  first := notUsed
  processes := ps

/-- `SLEEPING_PROCESS_LIMIT_REACHED` is `-1`. -/
def getNextAvailableSpace : ℤ :=
  ((SlotTable.firstFree (fun e : SleepingThread => e.id.used) maxSleeping
    (fun i => T.sleepingProcesses i)).map Int.ofNat).getD (-1)

def addSleepingProcess (tickQuantity : ℕ) : Timer :=
  if T.sleeping < maxSleeping then
    let added := T.setEntry T.firstAvailableSpace ⟨t,tickQuantity,T.first⟩
    { added with
      first := T.firstAvailableSpace
      firstAvailableSpace := added.getNextAvailableSpace
      sleeping := T.sleeping+1 }
  else T

/-- The search loop of `removeSleepingProcess`: `n` is what is left of `sleeping`, the
answer is the pair `previous`, `current` at the match. -/
def search : ℕ → ℤ → ℤ → Option (ℤ × ℤ)
  | 0, _, _ => none
  | n+1, previous, current =>
    if (T.sleepingProcesses current).id = t then some (previous,current)
    else search n current (T.sleepingProcesses current).next

def removeSleepingProcess : Option Timer :=
  match T.search t T.sleeping T.first T.first with
  | none => some T
  | some (previous,current) => do
    let T ← T.changeThreadState t .ready
    let c := T.sleepingProcesses current
    let T := T.setEntry current { c with id := { c.id with pid := notUsed } }
    let T := T.setEntry previous { T.sleepingProcesses previous with
      next := (T.sleepingProcesses current).next }
    pure { T with
      sleeping := T.sleeping-1
      firstAvailableSpace :=
        if T.firstAvailableSpace > current then current else T.firstAvailableSpace }

/-- `tickQuantity` is a `uint64_t`, so that `0` wraps around. -/
def decremented (e : SleepingThread) : SleepingThread :=
  { e with tickQuantity := if e.tickQuantity = 0 then 18446744073709551615 else e.tickQuantity-1 }

/-- The loop of `decrementTicks` with its counter `i` and a bound on the rounds left:
`sleeping` is read again in every round, and shrinks when a sleeper is removed. -/
def tickLoop : ℕ → ℕ → ℤ → Timer → Option Timer
  | 0, _, _, T => some T
  | n+1, i, current, T =>
    if i < T.sleeping then do
      let T := T.setEntry current (decremented (T.sleepingProcesses current))
      let c := T.sleepingProcesses current
      let T ← if c.tickQuantity = 0 then T.removeSleepingProcess c.id else pure T
      tickLoop n (i+1) (T.sleepingProcesses current).next T
    else some T

def decrementTicks : Option Timer := tickLoop T.sleeping 0 T.first T

/-- `sleep` up to its yield. -/
def sleep (milliseconds : ℕ) : Option Timer :=
  let ticks := milliseconds/55
  if 0 < ticks then (T.addSleepingProcess t ticks).changeThreadState t .sleeping else some T

variable {T t} {i : ℤ} {e : SleepingThread}

@[simp] theorem setEntry_self : (T.setEntry i e).sleepingProcesses i = e := by simp [setEntry]

theorem setEntry_of_ne {k : ℤ} (h : k ≠ i) :
    (T.setEntry i e).sleepingProcesses k = T.sleepingProcesses k := by simp [setEntry,h]

@[simp] theorem setEntry_processes : (T.setEntry i e).processes = T.processes := rfl
@[simp] theorem setEntry_sleeping : (T.setEntry i e).sleeping = T.sleeping := rfl
@[simp] theorem setEntry_first : (T.setEntry i e).first = T.first := rfl
@[simp] theorem setEntry_firstAvailableSpace :
    (T.setEntry i e).firstAvailableSpace = T.firstAvailableSpace := rfl

@[simp] theorem decremented_id : (decremented e).id = e.id := by simp only [decremented]
@[simp] theorem decremented_next : (decremented e).next = e.next := by simp only [decremented]

theorem decremented_tickQuantity (h : 0 < e.tickQuantity) :
    (decremented e).tickQuantity = e.tickQuantity-1 := if_neg (by omega)

theorem changeThreadState_real {st : ProcessState} (h : Processes.Real T.processes t) :
    T.changeThreadState t st =
      some { T with processes := Processes.setThreadState T.processes t st } := by
  simp [changeThreadState,Processes.changeThreadState_real h]

/-! ### One tick over a well-linked list -/

open SlotChains

def links (T : Timer) (i : ℤ) : ℤ := (T.sleepingProcesses i).next

def aged (js : List ℤ) (T : Timer) : Timer :=
  { T with sleepingProcesses := fun k =>
      if k ∈ js then decremented (T.sleepingProcesses k) else T.sleepingProcesses k }

@[simp] theorem aged_sleeping (js : List ℤ) : (aged js T).sleeping = T.sleeping := rfl
@[simp] theorem aged_processes (js : List ℤ) : (aged js T).processes = T.processes := rfl

@[simp] theorem links_aged (js : List ℤ) : links (aged js T) = links T := by
  funext k
  by_cases hk : k ∈ js <;> simp [links,aged,hk]

theorem aged_id (js : List ℤ) (k : ℤ) :
    ((aged js T).sleepingProcesses k).id = (T.sleepingProcesses k).id := by
  by_cases hk : k ∈ js <;> simp [aged,hk]

theorem aged_cons {js : List ℤ} {j : ℤ} (hj : j ∉ js) :
    aged js (T.setEntry j (decremented (T.sleepingProcesses j))) = aged (j::js) T := by
  have hsp : (aged js (T.setEntry j (decremented (T.sleepingProcesses j)))).sleepingProcesses =
      (aged (j::js) T).sleepingProcesses := by
    funext k
    by_cases hk : k = j
    · subst hk
      simp [aged,hj]
    · simp [aged,setEntry_of_ne hk,hk]
  exact congrArg (fun sp => { T with sleepingProcesses := sp }) hsp

/-- Rounds in which nobody's time runs out only age the visited slots. -/
theorem tickLoop_append {xs ys : List ℤ} {i n : ℕ} {c e : ℤ}
    (hp : Path (links T) c (xs++ys) e) (hnd : xs.Nodup) (hi : i+xs.length ≤ T.sleeping)
    (hx : ∀ k ∈ xs, (decremented (T.sleepingProcesses k)).tickQuantity ≠ 0) :
    ∃ m, Path (links T) m ys e ∧
      tickLoop (xs.length+n) i c T = tickLoop n (i+xs.length) m (aged xs T) := by
  induction xs generalizing c i T with
  | nil =>
    refine ⟨c,hp,?_⟩
    have haged : aged [] T = T := by simp [aged]
    simp [haged]
  | cons x xs ih =>
    obtain ⟨rfl,hp⟩ := hp
    obtain ⟨hnot,hnd⟩ := List.nodup_cons.mp hnd
    simp only [List.length_cons] at hi
    have hne : ∀ k ∈ xs, k ≠ c := fun k hk he => hnot (he ▸ hk)
    let T₁ := T.setEntry c (decremented (T.sleepingProcesses c))
    have hlinks : links T₁ = links T := by
      funext k
      by_cases hk : k = c
      · subst hk
        simp [links,T₁]
      · simp [links,T₁,setEntry_of_ne hk]
    obtain ⟨m,hm,hloop⟩ := ih (T := T₁) (i := i+1) (by rw [hlinks]; exact hp) hnd
      (by simp only [T₁,setEntry_sleeping]; omega)
      (fun k hk => by
        simp only [T₁,setEntry_of_ne (hne k hk)]
        exact hx k (List.mem_cons_of_mem _ hk))
    refine ⟨m,hlinks ▸ hm,?_⟩
    have hlt : i < T.sleeping := by omega
    have hzero := hx c List.mem_cons_self
    rw [aged_cons hnot] at hloop
    rw [show (c::xs).length+n = (xs.length+n)+1 by simp only [List.length_cons]; omega,tickLoop,
      if_pos hlt]
    simp only [setEntry_self,if_neg hzero,Option.pure_def,Option.bind_eq_bind,Option.bind_some,
      decremented_next]
    rw [show i+(c::xs).length = i+1+xs.length by simp only [List.length_cons]; omega]
    exact hloop

/-- The search stops at the one slot with the identity, with its predecessor. -/
theorem search_last {xs : List ℤ} {j c e p : ℤ} (hp : Path (links T) c (xs++[j]) e)
    (hx : ∀ k ∈ xs, (T.sleepingProcesses k).id ≠ t) (hj : (T.sleepingProcesses j).id = t) :
    T.search t (xs.length+1) p c = some (xs.getLast?.getD p,j) := by
  induction xs generalizing c p with
  | nil =>
    obtain ⟨rfl,-⟩ := hp
    simp [search,hj]
  | cons x xs ih =>
    obtain ⟨rfl,hp⟩ := hp
    have hne := hx c List.mem_cons_self
    rw [List.length_cons,search,if_neg hne]
    have hih := ih (p := c) hp (fun k hk => hx k (List.mem_cons_of_mem _ hk))
    simp only [links] at hih
    rw [hih]
    cases xs <;> simp [List.getLast?_cons]

theorem decrementTicks_aged {js : List ℤ} {e : ℤ} (hp : Path (links T) T.first js e)
    (hnd : js.Nodup) (hlen : T.sleeping = js.length)
    (hx : ∀ k ∈ js, (decremented (T.sleepingProcesses k)).tickQuantity ≠ 0) :
    T.decrementTicks = some (aged js T) := by
  obtain ⟨m,-,hloop⟩ := tickLoop_append (n := 0) (i := 0)
    (by rw [List.append_nil]; exact hp) hnd (by omega) hx
  rw [decrementTicks,hlen]
  exact hloop

structure Unlinked (xs : List ℤ) (j : ℤ) (T T' : Timer) : Prop where
  path : ∃ e, Path (links T') T.first xs e
  sleeping : T'.sleeping = xs.length
  first : T'.first = T.first
  space : T'.firstAvailableSpace =
    if T.firstAvailableSpace > j then j else T.firstAvailableSpace
  entry : ∀ k, k ≠ j → (T'.sleepingProcesses k).id = (T.sleepingProcesses k).id ∧
    (T'.sleepingProcesses k).tickQuantity = (T.sleepingProcesses k).tickQuantity
  freed : ¬ (T'.sleepingProcesses j).id.used
  processes : T'.processes =
    Processes.setThreadState T.processes (T.sleepingProcesses j).id .ready

theorem removeSleepingProcess_last {xs : List ℤ} {j e : ℤ}
    (hp : Path (links T) T.first (xs++[j]) e) (hnd : (xs++[j]).Nodup)
    (hlen : T.sleeping = xs.length+1)
    (hx : ∀ k ∈ xs, (T.sleepingProcesses k).id ≠ (T.sleepingProcesses j).id)
    (hreal : Processes.Real T.processes (T.sleepingProcesses j).id) :
    ∃ T', T.removeSleepingProcess (T.sleepingProcesses j).id = some T' ∧ Unlinked xs j T T' := by
  have hnot : j ∉ xs := by
    rw [List.nodup_append] at hnd
    exact fun h => hnd.2.2 j h j (List.mem_singleton_self j) rfl
  have hs := search_last (p := T.first) hp hx rfl
  rw [removeSleepingProcess,hlen,hs]
  simp only [changeThreadState_real hreal,Option.bind_eq_bind,Option.bind_some,Option.pure_def]
  let previous := xs.getLast?.getD T.first
  let c := T.sleepingProcesses j
  let T₁ : Timer := T.setEntry j { c with id := { c.id with pid := notUsed } }
  let T₂ : Timer := T₁.setEntry previous { T₁.sleepingProcesses previous with
    next := (T₁.sleepingProcesses j).next }
  have hlinks₁ : links T₁ = links T := by
    funext k
    by_cases hk : k = j
    · subst hk
      simp [links,T₁,c]
    · simp [links,T₁,setEntry_of_ne hk]
  have hid : ∀ k, (T₂.sleepingProcesses k).id = (T₁.sleepingProcesses k).id ∧
      (T₂.sleepingProcesses k).tickQuantity = (T₁.sleepingProcesses k).tickQuantity := by
    intro k
    by_cases hk : k = previous
    · rw [hk]
      simp [T₂]
    · simp [T₂,setEntry_of_ne hk]
  refine ⟨_,rfl,?_,?_,rfl,rfl,?_,?_,rfl⟩
  · have hlinks₂ : links T₂ = Function.update (links T) previous (links T j) := by
      rw [← hlinks₁]
      funext k
      by_cases hk : k = previous
      · rw [hk]
        simp [links,T₂]
      · simp [links,T₂,setEntry_of_ne hk,hk]
    show ∃ e, Path (links T₂) T.first xs e
    rw [hlinks₂]
    rw [path_snoc] at hp
    rcases List.eq_nil_or_concat' xs with rfl | ⟨ys,k,rfl⟩
    · exact ⟨_,rfl⟩
    · have hprev : previous = k := by simp [previous]
      rw [hprev]
      have hk : k ∉ ys := by
        rw [List.nodup_append,List.nodup_append] at hnd
        exact fun h => hnd.1.2.2 k h k (List.mem_singleton_self k) rfl
      exact ⟨_,hp.1.relink hk _⟩
  · show T.sleeping-1 = xs.length
    omega
  · intro k hk
    obtain ⟨h1,h2⟩ := hid k
    simp only [T₁,setEntry_of_ne hk] at h1 h2
    exact ⟨h1,h2⟩
  · have hj := (hid j).1
    simp only [T₁,setEntry_self] at hj
    show ¬ (T₂.sleepingProcesses j).id.used
    rw [hj]
    exact fun h => h rfl

/-- A tick in which exactly the last sleeper's time runs out. -/
theorem decrementTicks_last {xs : List ℤ} {j e : ℤ} (hp : Path (links T) T.first (xs++[j]) e)
    (hnd : (xs++[j]).Nodup) (hlen : T.sleeping = xs.length+1)
    (hx : ∀ k ∈ xs, (decremented (T.sleepingProcesses k)).tickQuantity ≠ 0)
    (hj : (decremented (T.sleepingProcesses j)).tickQuantity = 0)
    (hid : ∀ k ∈ xs, (T.sleepingProcesses k).id ≠ (T.sleepingProcesses j).id)
    (hreal : Processes.Real T.processes (T.sleepingProcesses j).id) :
    ∃ T', T.decrementTicks = some T' ∧ Unlinked xs j (aged (xs++[j]) T) T' := by
  have hnd' := List.nodup_append.mp hnd
  have hnot : j ∉ xs := fun h => hnd'.2.2 j h j (List.mem_singleton_self j) rfl
  obtain ⟨m,hm,hloop⟩ := tickLoop_append (n := 1) (i := 0) hp hnd'.1 (by omega) hx
  obtain ⟨rfl,-⟩ := hm
  have hlast : (aged xs T).setEntry m (decremented ((aged xs T).sleepingProcesses m)) =
      aged (xs++[m]) T := by
    have hsp : ((aged xs T).setEntry m (decremented ((aged xs T).sleepingProcesses m))).sleepingProcesses
        = (aged (xs++[m]) T).sleepingProcesses := by
      funext k
      by_cases hk : k = m
      · subst hk
        simp [aged,hnot]
      · simp [aged,setEntry_of_ne hk,hk]
    exact congrArg (fun sp => { T with sleepingProcesses := sp }) hsp
  have hzero : ((aged (xs++[m]) T).sleepingProcesses m).tickQuantity = 0 := by
    simpa [aged] using hj
  obtain ⟨T',he,hu⟩ := removeSleepingProcess_last (T := aged (xs++[m]) T)
    (by rw [links_aged]; exact hp) hnd hlen
    (fun k hk => by simpa only [aged_id] using hid k hk)
    (by simpa only [aged_id,aged_processes] using hreal)
  refine ⟨T',?_,hu⟩
  have hlt : 0+xs.length < (aged xs T).sleeping := by
    rw [aged_sleeping]
    omega
  rw [decrementTicks,hlen,hloop,tickLoop,if_pos hlt]
  simp only [hlast,if_pos hzero,he,Option.bind_eq_bind,Option.bind_some,tickLoop]

end Timer
end ComplexOS
