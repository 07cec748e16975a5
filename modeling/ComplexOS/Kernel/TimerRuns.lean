import ComplexOS.Kernel.Timer
import ComplexOS.Library.Runs
import Mathlib.Data.List.Count

/-! # Runs of the timer

Any interleaving of `sleep` calls and ticks. The ghosts are the sleepers in the order
of their calls, the newest first, the ticks each thread has still to sleep, and
whether all slots have ever been taken.
-/
namespace ComplexOS
open SlotChains

structure TimerRun where
  timer : Timer
  order : List ThreadId
  due : ThreadId → Option ℕ
  filled : Bool

inductive TimerStep
  | sleep (milliseconds : ℕ) (t : ThreadId)
  | tick
  deriving DecidableEq, Repr

namespace TimerRun
variable (s : TimerRun)

def start (ps : ℤ → Option Process) : TimerRun :=
  ⟨Timer.initializeTimer ps,[],fun _ => none,false⟩

def remaining (t : ThreadId) : Option ℕ := (s.due t).map (fun r => r-1)

/-- A `sleep` is taken from a thread that is not asleep, while a slot is left. -/
def step : TimerStep → Option TimerRun
  | .sleep milliseconds t =>
    if 0 < milliseconds/55 ∧ Processes.Real s.timer.processes t ∧ t ∉ s.order ∧
        s.order.length < maxSleeping then
      (s.timer.sleep t milliseconds).map (fun T =>
        { timer := T
          order := t::s.order
          due := Function.update s.due t (some (milliseconds/55))
          filled := s.filled || decide (s.order.length+1 = maxSleeping) })
    else none
  | .tick => s.timer.decrementTicks.map (fun T =>
      { timer := T
        order := s.order.filter (fun t => decide (s.remaining t ≠ some 0))
        due := s.remaining
        filled := s.filled })

/-- No sleeper is added once all slots have been taken, and no time runs out but that
of the thread that has been asleep for longest. -/
def Calm (s : TimerRun) : TimerStep → Prop
  | .sleep _ _ => s.filled = false
  | .tick => ∀ t ∈ s.order.dropLast, s.due t ≠ some 1

instance (l : TimerStep) : Decidable (s.Calm l) := by
  cases l <;> simp only [Calm] <;> infer_instance

/-- A thread that has called `sleep` is SLEEPING up to the tick with the number it
asked for, and READY from that tick on. -/
def Law (ls : List TimerStep) (s : TimerRun) : Prop :=
  ∀ pre milliseconds t post, ls = pre++.sleep milliseconds t::post →
    (∀ m, TimerStep.sleep m t ∉ post) →
    Processes.threadState s.timer.processes t =
      some (if post.count .tick < milliseconds/55 then .sleeping else .ready)

structure Listed (T : Timer) (js : List ℤ) (order : List ThreadId) (due : ThreadId → Option ℕ) :
    Prop where
  path : ∃ e, Path T.links T.first js e
  sleeping : T.sleeping = js.length
  nodup : js.Nodup
  ids : js.map (fun j => (T.sleepingProcesses j).id) = order
  ticks : ∀ j ∈ js, due (T.sleepingProcesses j).id = some (T.sleepingProcesses j).tickQuantity ∧
    0 < (T.sleepingProcesses j).tickQuantity
  inside : ∀ j ∈ js, 0 ≤ j ∧ j < maxSleeping
  used : ∀ j : ℤ, 0 ≤ j → j < maxSleeping → ((T.sleepingProcesses j).id.used ↔ j ∈ js)

structure Ok : Prop where
  listed : ∃ js, Listed s.timer js s.order s.due
  distinct : s.order.Nodup
  real : ∀ t ∈ s.order, Processes.Real s.timer.processes t
  space : s.filled = false → 0 ≤ s.timer.firstAvailableSpace ∧
    s.timer.firstAvailableSpace < maxSleeping ∧
    ¬ (s.timer.sleepingProcesses s.timer.firstAvailableSpace).id.used
  ended : ∀ t, t ∉ s.order → ∀ r, s.due t = some r → r = 0
  state : ∀ t r, s.due t = some r → Processes.threadState s.timer.processes t =
    some (if r = 0 then .ready else .sleeping)

variable {s}

theorem start_ok (ps : ℤ → Option Process) : (start ps).Ok := by
  refine ⟨⟨[],⟨⟨_,rfl⟩,rfl,List.nodup_nil,rfl,by simp,by simp,?_⟩⟩,List.nodup_nil,by simp [start],
    fun _ => ⟨le_rfl,by simp [start,Timer.initializeTimer,maxSleeping],fun h => h rfl⟩,by simp [start],by simp [start]⟩
  intro j _ _
  simp [start,Timer.initializeTimer,ThreadId.used]

/-- With a slot left the search for it succeeds. -/
theorem getNextAvailableSpace_spec {T : Timer} {js : List ℤ}
    (hused : ∀ j : ℤ, 0 ≤ j → j < maxSleeping → ((T.sleepingProcesses j).id.used ↔ j ∈ js))
    (hlen : js.length < maxSleeping) :
    0 ≤ T.getNextAvailableSpace ∧ T.getNextAvailableSpace < maxSleeping ∧
      ¬ (T.sleepingProcesses T.getNextAvailableSpace).id.used := by
  rw [Timer.getNextAvailableSpace]
  cases hf : SlotTable.firstFree (fun e : SleepingThread => e.id.used) maxSleeping
      (fun i => T.sleepingProcesses i) with
  | none =>
    have hall : ∀ i ∈ Finset.range maxSleeping, (i : ℤ) ∈ js.toFinset := by
      intro i hi
      have hi := Finset.mem_range.mp hi
      exact List.mem_toFinset.mpr
        ((hused i (by omega) (by omega)).mp
          (SlotTable.firstFree_none (f := fun i : ℕ => T.sleepingProcesses i) hf hi))
    have hcard := Finset.card_le_card_of_injOn _ hall (fun a _ b _ h => Int.ofNat.inj h)
    have hle := js.toFinset_card_le
    rw [Finset.card_range] at hcard
    omega
  | some k =>
    obtain ⟨hk,hfree⟩ := SlotTable.firstFree_some hf
    exact ⟨Int.natCast_nonneg k,by simpa using hk,hfree⟩

theorem Listed.length {T : Timer} {js : List ℤ} {order : List ThreadId}
    {due : ThreadId → Option ℕ} (h : Listed T js order due) : js.length = order.length := by
  rw [← h.ids,List.length_map]

/-- A new sleeper becomes the head of the list. -/
theorem Listed.add {T T' : Timer} {js : List ℤ} {order : List ThreadId}
    {due : ThreadId → Option ℕ} (h : Listed T js order due) {t : ThreadId} {n : ℕ} (hn : 0 < n)
    (ht : t.used) (hnot : t ∉ order) {k : ℤ} (hk : 0 ≤ k) (hk' : k < maxSleeping)
    (hfree : ¬ (T.sleepingProcesses k).id.used)
    (hsp : T'.sleepingProcesses = Function.update T.sleepingProcesses k ⟨t,n,T.first⟩)
    (hfirst : T'.first = k) (hsleeping : T'.sleeping = T.sleeping+1) :
    Listed T' (k::js) (t::order) (Function.update due t (some n)) := by
  have hkjs : k ∉ js := fun hm => hfree ((h.used k hk hk').mpr hm)
  have hne : ∀ j ∈ js, j ≠ k := fun j hj he => hkjs (he ▸ hj)
  have hold : ∀ j, j ≠ k → T'.sleepingProcesses j = T.sleepingProcesses j :=
    fun j hj => by rw [hsp,Function.update_of_ne hj]
  have hself : T'.sleepingProcesses k = ⟨t,n,T.first⟩ := by rw [hsp,Function.update_self]
  have hid : ∀ j ∈ js, (T.sleepingProcesses j).id ≠ t := by
    intro j hj he
    exact hnot (he ▸ h.ids ▸ List.mem_map_of_mem hj)
  obtain ⟨e,hp⟩ := h.path
  refine ⟨⟨e,hfirst,?_⟩,by simp [hsleeping,h.sleeping],List.nodup_cons.mpr ⟨hkjs,h.nodup⟩,?_,?_,
    ?_,?_⟩
  · rw [Timer.links,hself]
    exact hp.congr (fun j hj => by rw [Timer.links,hold j (hne j hj),Timer.links])
  · rw [List.map_cons,hself,← h.ids]
    exact congrArg (t::·) (List.map_congr_left (fun j hj => by rw [hold j (hne j hj)]))
  · intro j hj
    rcases List.mem_cons.mp hj with rfl | hj
    · simp [hself,hn]
    · rw [hold j (hne j hj),Function.update_of_ne (hid j hj)]
      exact h.ticks j hj
  · intro j hj
    rcases List.mem_cons.mp hj with rfl | hj
    · exact ⟨hk,hk'⟩
    · exact h.inside j hj
  · intro j hlo hhi
    by_cases hjk : j = k
    · subst hjk
      simp [hself,ht]
    · rw [hold j hjk,h.used j hlo hhi]
      simp [hjk]

theorem sleep_ok {milliseconds : ℕ} {t : ThreadId} {s' : TimerRun} (hs : s.Ok)
    (hc : s.Calm (.sleep milliseconds t)) (h : step s (.sleep milliseconds t) = some s') :
    s'.Ok := by
  rw [step] at h
  split at h
  swap
  · cases h
  rename_i hg
  obtain ⟨hpos,hreal,hnot,hlen⟩ := hg
  obtain ⟨js,hlist⟩ := hs.listed
  obtain ⟨hk,hk',hfree⟩ := hs.space hc
  have hlt : s.timer.sleeping < maxSleeping := by
    rw [hlist.sleeping,hlist.length]
    exact hlen
  let k := s.timer.firstAvailableSpace
  let added := s.timer.setEntry k ⟨t,milliseconds/55,s.timer.first⟩
  let T₁ : Timer := { added with
    first := k
    firstAvailableSpace := added.getNextAvailableSpace
    sleeping := s.timer.sleeping+1 }
  have hadd : s.timer.addSleepingProcess t (milliseconds/55) = T₁ := if_pos hlt
  have hreal₁ : Processes.Real T₁.processes t := hreal
  rw [Timer.sleep,if_pos hpos,hadd,Timer.changeThreadState_real hreal₁,Option.map_some] at h
  cases h
  have hused : t.used := by
    have := hreal.pid
    simp only [ThreadId.used,notUsed]
    omega
  have hadded : Listed { T₁ with processes := Processes.setThreadState T₁.processes t .sleeping }
      _ (t::s.order) (Function.update s.due t (some (milliseconds/55))) :=
    hlist.add hpos hused hnot hk hk' hfree rfl rfl rfl
  refine ⟨⟨_,hadded⟩,List.nodup_cons.mpr ⟨hnot,hs.distinct⟩,?_,?_,?_,?_⟩
  · intro u hu
    refine Processes.real_set.mpr ?_
    rcases List.mem_cons.mp hu with rfl | hu
    · exact hreal
    · exact hs.real u hu
  · intro hf
    simp only [Bool.or_eq_false_iff,decide_eq_false_iff_not] at hf
    refine getNextAvailableSpace_spec (T := added) hadded.used ?_
    have := hadded.length
    simp only [List.length_cons] at *
    omega
  · intro u hu r hr
    simp only [List.mem_cons,not_or] at hu
    simp only [Function.update_of_ne hu.1] at hr
    exact hs.ended u hu.2 r hr
  · intro u r hr
    by_cases hut : u = t
    · subst hut
      simp only [Function.update_self,Option.some.injEq] at hr
      obtain ⟨x,hx⟩ := Option.isSome_iff_exists.mp hreal.isSome
      rw [Processes.threadState_set_self,if_neg (by omega)]
      exact congrArg (Option.map _) hx
    · simp only [Function.update_of_ne hut] at hr
      rw [Processes.threadState_set_of_ne hut]
      exact hs.state u r hr

theorem remaining_some {t : ThreadId} {r : ℕ} (h : s.remaining t = some r) :
    ∃ d, s.due t = some d ∧ r = d-1 := by
  obtain ⟨d,hd,hr⟩ := Option.map_eq_some_iff.mp h
  exact ⟨d,hd,hr.symm⟩

/-- Who is not asleep has no ticks left, whatever a tick does elsewhere. -/
theorem Ok.over_remaining (hs : s.Ok) {t : ThreadId} (ht : t ∉ s.order) {r : ℕ}
    (h : s.remaining t = some r) : s.due t = some 0 ∧ r = 0 := by
  obtain ⟨d,hd,rfl⟩ := remaining_some h
  have := hs.ended t ht d hd
  subst this
  exact ⟨hd,rfl⟩

/-- A tick in which no time runs out. -/
theorem tick_quiet {js : List ℤ} (hs : s.Ok) (hl : Listed s.timer js s.order s.due)
    (hq : ∀ j ∈ js, (s.timer.sleepingProcesses j).tickQuantity ≠ 1) {s' : TimerRun}
    (h : step s .tick = some s') : s'.Ok := by
  have hone : ∀ j ∈ js, 1 < (s.timer.sleepingProcesses j).tickQuantity := by
    intro j hj
    have := (hl.ticks j hj).2
    have := hq j hj
    omega
  have hdec : ∀ j ∈ js, (Timer.decremented (s.timer.sleepingProcesses j)).tickQuantity =
      (s.timer.sleepingProcesses j).tickQuantity-1 :=
    fun j hj => Timer.decremented_tickQuantity (hl.ticks j hj).2
  obtain ⟨e,hp⟩ := hl.path
  have htick := Timer.decrementTicks_aged hp hl.nodup hl.sleeping (fun j hj => by
    rw [hdec j hj]
    have := hone j hj
    omega)
  rw [step,htick,Option.map_some] at h
  cases h
  have hasleep : ∀ t ∈ s.order, ∃ d, s.due t = some d ∧ 1 < d := by
    intro t ht
    rw [← hl.ids] at ht
    obtain ⟨j,hj,rfl⟩ := List.mem_map.mp ht
    exact ⟨_,(hl.ticks j hj).1,hone j hj⟩
  have horder : s.order.filter (fun t => decide (s.remaining t ≠ some 0)) = s.order := by
    refine List.filter_eq_self.mpr (fun t ht => decide_eq_true (fun he => ?_))
    obtain ⟨d,hd,hlt⟩ := hasleep t ht
    obtain ⟨d',hd',hr⟩ := remaining_some he
    rw [hd] at hd'
    cases hd'
    omega
  simp only [horder]
  have hin : ∀ j ∈ js, (Timer.aged js s.timer).sleepingProcesses j =
      Timer.decremented (s.timer.sleepingProcesses j) := fun j hj => if_pos hj
  refine ⟨⟨js,⟨e,by rw [Timer.links_aged]; exact hp⟩,hl.sleeping,hl.nodup,?_,?_,hl.inside,?_⟩,
    hs.distinct,hs.real,?_,?_,?_⟩
  · simpa only [Timer.aged_id] using hl.ids
  · intro j hj
    rw [hin j hj,hdec j hj,Timer.decremented_id]
    have := hone j hj
    exact ⟨congrArg (Option.map _) (hl.ticks j hj).1,by omega⟩
  · intro j hlo hhi
    rw [Timer.aged_id]
    exact hl.used j hlo hhi
  · intro hf
    simp only [Timer.aged_id]
    exact hs.space hf
  · exact fun t ht r hr => (hs.over_remaining ht hr).2
  · intro t r hr
    by_cases ht : t ∈ s.order
    · obtain ⟨d,hd,hlt⟩ := hasleep t ht
      obtain ⟨d',hd',rfl⟩ := remaining_some hr
      rw [hd] at hd'
      cases hd'
      have hst := hs.state t d hd
      rw [if_neg (by omega)] at hst ⊢
      exact hst
    · obtain ⟨hd,rfl⟩ := hs.over_remaining ht hr
      exact hs.state t 0 hd

/-- A tick in which the time of the thread asleep for longest runs out. -/
theorem tick_expires {xs : List ℤ} {j : ℤ} (hs : s.Ok)
    (hl : Listed s.timer (xs++[j]) s.order s.due)
    (hx : ∀ k ∈ xs, (s.timer.sleepingProcesses k).tickQuantity ≠ 1)
    (hj : (s.timer.sleepingProcesses j).tickQuantity = 1) {s' : TimerRun}
    (h : step s .tick = some s') : s'.Ok := by
  have hone : ∀ k ∈ xs, 1 < (s.timer.sleepingProcesses k).tickQuantity := by
    intro k hk
    have := (hl.ticks k (List.mem_append_left _ hk)).2
    have := hx k hk
    omega
  have hdec : ∀ k ∈ xs++[j], (Timer.decremented (s.timer.sleepingProcesses k)).tickQuantity =
      (s.timer.sleepingProcesses k).tickQuantity-1 :=
    fun k hk => Timer.decremented_tickQuantity (hl.ticks k hk).2
  have hjmem : j ∈ xs++[j] := List.mem_append_right _ (List.mem_singleton_self j)
  have hnotj : ∀ k ∈ xs, k ≠ j :=
    fun k hk he => (List.nodup_append.mp hl.nodup).2.2 k hk j (List.mem_singleton_self j) he
  have horder := hl.ids
  rw [List.map_append,List.map_singleton] at horder
  have hdist := hs.distinct
  rw [← horder,List.nodup_append] at hdist
  have hid : ∀ k ∈ xs, (s.timer.sleepingProcesses k).id ≠ (s.timer.sleepingProcesses j).id :=
    fun k hk => hdist.2.2 _ (List.mem_map_of_mem hk) _ (List.mem_singleton_self _)
  have hreal : Processes.Real s.timer.processes (s.timer.sleepingProcesses j).id :=
    hs.real _ (horder ▸ List.mem_append_right _ (List.mem_singleton_self _))
  obtain ⟨e,hp⟩ := hl.path
  obtain ⟨T',htick,hu⟩ := Timer.decrementTicks_last hp hl.nodup (by simp [hl.sleeping])
    (fun k hk => by
      rw [hdec k (List.mem_append_left _ hk)]
      have := hone k hk
      omega)
    (by rw [hdec j hjmem,hj]) hid hreal
  rw [step,htick,Option.map_some] at h
  cases h
  have hduej : s.due (s.timer.sleepingProcesses j).id = some 1 := by
    rw [(hl.ticks j hjmem).1,hj]
  have hasleep : ∀ k ∈ xs, s.remaining (s.timer.sleepingProcesses k).id =
      some ((s.timer.sleepingProcesses k).tickQuantity-1) := by
    intro k hk
    rw [remaining,(hl.ticks k (List.mem_append_left _ hk)).1,Option.map_some]
  have hfilter : s.order.filter (fun t => decide (s.remaining t ≠ some 0)) =
      xs.map (fun k => (s.timer.sleepingProcesses k).id) := by
    have hgone : s.remaining (s.timer.sleepingProcesses j).id = some 0 := by
      rw [remaining,hduej]
      rfl
    rw [← horder,List.filter_append,List.filter_singleton,hgone]
    simp only [ne_eq,not_true_eq_false,decide_false,cond_false,List.append_nil]
    refine List.filter_eq_self.mpr (fun t ht => decide_eq_true (fun he => ?_))
    obtain ⟨k,hk,rfl⟩ := List.mem_map.mp ht
    rw [hasleep k hk] at he
    have := hone k hk
    have := Option.some.inj he
    omega
  rw [hfilter]
  have hentry : ∀ k ∈ xs, (T'.sleepingProcesses k).id = (s.timer.sleepingProcesses k).id ∧
      (T'.sleepingProcesses k).tickQuantity = (s.timer.sleepingProcesses k).tickQuantity-1 := by
    intro k hk
    have hmem : k ∈ xs++[j] := List.mem_append_left _ hk
    obtain ⟨h1,h2⟩ := hu.entry k (hnotj k hk)
    refine ⟨by rw [h1,Timer.aged_id],?_⟩
    rw [h2,← hdec k hmem]
    simp only [Timer.aged,if_pos hmem]
  have hids : ∀ k, k ≠ j → (T'.sleepingProcesses k).id = (s.timer.sleepingProcesses k).id :=
    fun k hk => by rw [(hu.entry k hk).1,Timer.aged_id]
  have hprocs : T'.processes = Processes.setThreadState s.timer.processes
      (s.timer.sleepingProcesses j).id .ready := by
    rw [hu.processes,Timer.aged_id,Timer.aged_processes]
  have hkeep : ∀ t, t ∉ xs.map (fun k => (s.timer.sleepingProcesses k).id) →
      t ≠ (s.timer.sleepingProcesses j).id → t ∉ s.order := by
    intro t ht hne hm
    rw [← horder] at hm
    rcases List.mem_append.mp hm with hm | hm
    · exact ht hm
    · exact hne (List.mem_singleton.mp hm)
  refine ⟨⟨xs,?_,hu.sleeping,(List.nodup_append.mp hl.nodup).1,?_,?_,?_,?_⟩,hdist.1,?_,?_,?_,?_⟩
  · rw [hu.first]
    exact hu.path
  · exact List.map_congr_left (fun k hk => (hentry k hk).1)
  · intro k hk
    have := hone k hk
    rw [(hentry k hk).1,(hentry k hk).2]
    exact ⟨hasleep k hk,by omega⟩
  · exact fun k hk => hl.inside k (List.mem_append_left _ hk)
  · intro k hlo hhi
    by_cases hk : k = j
    · subst hk
      exact iff_of_false hu.freed (fun hm => hnotj k hm rfl)
    · rw [hids k hk,hl.used k hlo hhi]
      simp [hk]
  · intro t ht
    rw [hprocs,Processes.real_set]
    exact hs.real t (horder ▸ List.mem_append_left _ ht)
  · intro hf
    obtain ⟨h1,h2,h3⟩ := hs.space hf
    obtain ⟨hj1,hj2⟩ := hl.inside j hjmem
    have hspace : T'.firstAvailableSpace = if s.timer.firstAvailableSpace > j then j
      else s.timer.firstAvailableSpace := hu.space
    by_cases hgt : s.timer.firstAvailableSpace > j
    · rw [if_pos hgt] at hspace
      rw [hspace]
      exact ⟨hj1,hj2,hu.freed⟩
    · rw [if_neg hgt] at hspace
      rw [hspace]
      refine ⟨h1,h2,?_⟩
      by_cases he : s.timer.firstAvailableSpace = j
      · rw [he]
        exact hu.freed
      · rw [hids _ he]
        exact h3
  · intro t ht r hr
    by_cases he : t = (s.timer.sleepingProcesses j).id
    · obtain ⟨d,hd,rfl⟩ := remaining_some hr
      rw [he,hduej] at hd
      cases hd
      rfl
    · exact (hs.over_remaining (hkeep t ht he) hr).2
  · intro t r hr
    rw [hprocs]
    by_cases he : t = (s.timer.sleepingProcesses j).id
    · obtain ⟨d,hd,rfl⟩ := remaining_some hr
      obtain ⟨x,hx⟩ := Option.isSome_iff_exists.mp hreal.isSome
      rw [he,hduej] at hd
      cases hd
      rw [he,Processes.threadState_set_self,hx]
      rfl
    · rw [Processes.threadState_set_of_ne he]
      by_cases ht : t ∈ xs.map (fun k => (s.timer.sleepingProcesses k).id)
      · obtain ⟨k,hk,rfl⟩ := List.mem_map.mp ht
        have := hone k hk
        have hr := (hasleep k hk).symm.trans hr
        have hst := hs.state _ _ (hl.ticks k (List.mem_append_left _ hk)).1
        have := Option.some.inj hr
        rw [if_neg (by omega)] at hst ⊢
        exact hst
      · obtain ⟨hd,rfl⟩ := hs.over_remaining (hkeep t ht he) hr
        exact hs.state t 0 hd

theorem tick_ok {s' : TimerRun} (hs : s.Ok) (hc : s.Calm .tick)
    (h : step s .tick = some s') : s'.Ok := by
  obtain ⟨js,hl⟩ := hs.listed
  rcases List.eq_nil_or_concat' js with rfl | ⟨xs,j,rfl⟩
  · exact tick_quiet hs hl (by simp) h
  · have hx : ∀ k ∈ xs, (s.timer.sleepingProcesses k).tickQuantity ≠ 1 := by
      intro k hk he
      refine hc (s.timer.sleepingProcesses k).id ?_ ?_
      · rw [← hl.ids,List.map_append,List.map_singleton,List.dropLast_concat]
        exact List.mem_map_of_mem hk
      · rw [(hl.ticks k (List.mem_append_left _ hk)).1,he]
    by_cases hj : (s.timer.sleepingProcesses j).tickQuantity = 1
    · exact tick_expires hs hl hx hj h
    · refine tick_quiet hs hl (fun k hk => ?_) h
      rcases List.mem_append.mp hk with hk | hk
      · exact hx k hk
      · rwa [List.mem_singleton.mp hk]

theorem step_ok {l : TimerStep} {s' : TimerRun} (hs : s.Ok) (hc : s.Calm l)
    (h : step s l = some s') : s'.Ok := by
  cases l with
  | sleep milliseconds t => exact sleep_ok hs hc h
  | tick => exact tick_ok hs hc h

/-- Ticks take a thread's remaining time down one by one until it sleeps again. -/
theorem due_run {t : ThreadId} {ls : List TimerStep} {s' : TimerRun}
    (hr : Runs.run step s ls = some s') (hno : ∀ m, TimerStep.sleep m t ∉ ls) :
    s'.due t = (s.due t).map (fun r => r-ls.count .tick) := by
  induction ls generalizing s with
  | nil =>
    cases hr
    simp
  | cons l ls ih =>
    obtain ⟨s₁,h₁,hr⟩ := Runs.run_cons.mp hr
    rw [ih hr (fun m hm => hno m (List.mem_cons_of_mem _ hm))]
    cases l with
    | sleep m u =>
      have hne : t ≠ u := fun he => hno m (he ▸ List.mem_cons_self)
      rw [step] at h₁
      split at h₁
      · obtain ⟨T,-,rfl⟩ := Option.map_eq_some_iff.mp h₁
        simp [Function.update_of_ne hne]
      · cases h₁
    | tick =>
      obtain ⟨T,-,rfl⟩ := Option.map_eq_some_iff.mp h₁
      simp only [remaining,Option.map_map,List.count_cons_self]
      congr 1
      funext r
      simp only [Function.comp_apply]
      omega

theorem run_ok {ps : ℤ → Option Process} {ls : List TimerStep}
    (hc : Runs.Along step Calm (start ps) ls) (hr : Runs.run step (start ps) ls = some s) : s.Ok :=
  (Runs.Along.invariant (fun _ _ _ hs hc h => step_ok hs hc h) (fun _ _ _ hc => hc)
    (start_ok ps) hc).2 s hr

/-- The timer law holds in every state of every run whose steps are calm. -/
theorem timer_law {ps : ℤ → Option Process} {ls : List TimerStep}
    (hc : Runs.Along step Calm (start ps) ls) (hr : Runs.run step (start ps) ls = some s) :
    Law ls s := by
  have hs := run_ok hc hr
  rintro pre milliseconds t post rfl hno
  obtain ⟨s₁,-,h₁⟩ := Runs.run_append.mp hr
  obtain ⟨s₂,h₂,h₃⟩ := Runs.run_cons.mp h₁
  have hdue : s₂.due t = some (milliseconds/55) := by
    rw [step] at h₂
    split at h₂
    · obtain ⟨T,-,rfl⟩ := Option.map_eq_some_iff.mp h₂
      simp
    · cases h₂
  have hend := due_run h₃ hno
  rw [hdue,Option.map_some] at hend
  rw [hs.state t _ hend]
  by_cases hlt : post.count .tick < milliseconds/55
  · rw [if_pos hlt,if_neg (by omega)]
  · rw [if_neg hlt,if_pos (by omega)]

theorem timer_law_two_sleepers :
    ∃ s, Runs.run step (start Processes.twoThreads)
      [.sleep 55 ⟨1,0⟩,.sleep 110 ⟨2,0⟩,.tick,.tick] = some s ∧
        Law [.sleep 55 ⟨1,0⟩,.sleep 110 ⟨2,0⟩,.tick,.tick] s := by
  have hc : Runs.Along step Calm (start Processes.twoThreads)
      [.sleep 55 ⟨1,0⟩,.sleep 110 ⟨2,0⟩,.tick,.tick] := by decide
  have hs : (Runs.run step (start Processes.twoThreads)
      [.sleep 55 ⟨1,0⟩,.sleep 110 ⟨2,0⟩,.tick,.tick]).isSome := by decide
  obtain ⟨s,hs⟩ := Option.isSome_iff_exists.mp hs
  exact ⟨s,hs,timer_law hc hs⟩

/-- When the newer of two sleepers is woken, the older one is passed over. -/
theorem timer_law_fails :
    ¬ ∀ ps ls s, Runs.run step (start ps) ls = some s → Law ls s := by
  intro h
  have hs : (Runs.run step (start Processes.twoThreads)
      [.sleep 110 ⟨1,0⟩,.sleep 55 ⟨2,0⟩,.tick,.tick]).map
        (fun s => Processes.threadState s.timer.processes ⟨1,0⟩) = some (some .sleeping) := by
    decide
  obtain ⟨s,hr,hst⟩ := Option.map_eq_some_iff.mp hs
  have hlaw := h _ _ s hr [] 110 ⟨1,0⟩ [.sleep 55 ⟨2,0⟩,.tick,.tick] rfl (by simp)
  rw [hst] at hlaw
  exact absurd hlaw (by decide)

end TimerRun
end ComplexOS
