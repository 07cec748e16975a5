import ComplexOS.Kernel.TimerRuns
import ComplexOS.Library.Rings

/-! # Any additions to the sleep list and removals from it

`addSleepingProcess` and `removeSleepingProcess` in any order from `initializeTimer`
on, with the process table in any state at each call. The array, the links, the count
and the cached free index agree as long as nobody is taken from the head of a longer
list and nobody from a full table: the first leaves `first` on a freed slot, the second
leaves the index at `-1`.
-/
namespace ComplexOS.Timer
open SlotChains

inductive SleepStep
  | add (t : ThreadId) (tickQuantity : ℕ)
  | remove (t : ThreadId)
  | processes (ps : ℤ → Option Process)

def step (T : Timer) : SleepStep → Option Timer
  | .add t tickQuantity => some (T.addSleepingProcess t tickQuantity)
  | .remove t => T.removeSleepingProcess t
  | .processes ps => some { T with processes := ps }

/-- The nodes reached from `first` in `sleeping-1` steps along `next`. -/
def nodes (T : Timer) : List ℤ := follow T.links T.sleeping T.first

/-- The nodes are the used entries, each once, and with room left the cached index is
an unused entry. -/
structure Sound (T : Timer) : Prop where
  nodup : T.nodes.Nodup
  exact : ∀ j, j ∈ T.nodes ↔ 0 ≤ j ∧ j < maxSleeping ∧ (T.sleepingProcesses j).id.used
  space : T.sleeping < maxSleeping → 0 ≤ T.firstAvailableSpace ∧
    T.firstAvailableSpace < maxSleeping ∧
    ¬ (T.sleepingProcesses T.firstAvailableSpace).id.used

/-- A sleeper added with room left has a real pid. A sleeper removed leaves a table that
was not full, and is the head of the list only if it is alone. -/
def Fits (T : Timer) : SleepStep → Prop
  | .add t _ => T.sleeping < maxSleeping → t.used
  | .remove t => (∃ j ∈ T.nodes, (T.sleepingProcesses j).id = t) →
      T.sleeping < maxSleeping ∧ ((T.sleepingProcesses T.first).id = t → T.sleeping = 1)
  | .processes _ => True

instance (T : Timer) (l : SleepStep) : Decidable (T.Fits l) := by
  cases l <;> simp only [Fits,ThreadId.used] <;> infer_instance

structure Accounted (T : Timer) : Prop extends Sound T where
  full : T.sleeping = maxSleeping → T.firstAvailableSpace = -1

variable {T T' : Timer} {t : ThreadId} {j k p : ℤ} {n : ℕ} {xs ys : List ℤ}

theorem nodes_eq {e : ℤ} (hp : Path T.links T.first xs e) (hn : T.sleeping = xs.length) :
    T.nodes = xs := by
  unfold nodes
  rw [hn]
  exact follow_of_path hp

theorem length_nodes : T.nodes.length = T.sleeping := length_follow _

theorem first_mem (h : 0 < T.sleeping) : T.first ∈ T.nodes := by
  obtain ⟨n,hn⟩ := Nat.exists_eq_succ_of_ne_zero (Nat.pos_iff_ne_zero.mp h)
  unfold nodes
  rw [hn]
  exact List.mem_cons_self

theorem Sound.sleeping_le (h : T.Sound) : T.sleeping ≤ maxSleeping := by
  rw [← length_nodes]
  exact length_le_slots (m := maxSleeping) h.nodup (fun j hj => ⟨((h.exact j).mp hj).1,((h.exact j).mp hj).2.1⟩)

theorem Sound.used_iff (h : T.Sound) (hlo : 0 ≤ j) (hhi : j < maxSleeping) :
    (T.sleepingProcesses j).id.used ↔ j ∈ T.nodes := by
  rw [h.exact]
  exact ⟨fun hu => ⟨hlo,hhi,hu⟩,fun hu => hu.2.2⟩

theorem initializeTimer_accounted (ps : ℤ → Option Process) : (initializeTimer ps).Accounted where
  nodup := List.nodup_nil
  exact := by simp [nodes,follow,initializeTimer,ThreadId.used]
  space := fun _ => ⟨le_rfl,by simp [initializeTimer,maxSleeping],fun h => h rfl⟩
  full := by simp [initializeTimer,maxSleeping]

/-- Without a free slot the search answers the error code. -/
theorem getNextAvailableSpace_full (hnd : xs.Nodup) (hlen : xs.length = maxSleeping)
    (hin : ∀ j, j ∈ xs ↔ 0 ≤ j ∧ j < maxSleeping ∧ (T.sleepingProcesses j).id.used) :
    T.getNextAvailableSpace = -1 := by
  rw [getNextAvailableSpace]
  cases hf : SlotTable.firstFree (fun e : SleepingThread => e.id.used) maxSleeping
      (fun i => T.sleepingProcesses i) with
  | none => rfl
  | some k =>
    obtain ⟨hk,hfree⟩ := SlotTable.firstFree_some hf
    have hnot : (k:ℤ) ∉ xs := fun h => hfree ((hin k).mp h).2.2
    have hmore := length_le_slots (m := maxSleeping) (List.nodup_cons.mpr ⟨hnot,hnd⟩) (fun j hj => by
      rcases List.mem_cons.mp hj with rfl | hj
      · omega
      · exact ⟨((hin j).mp hj).1,((hin j).mp hj).2.1⟩)
    rw [List.length_cons] at hmore
    omega

/-! ### Additions -/

theorem addSleepingProcess_room (h : T.sleeping < maxSleeping) :
    ∃ T', T.addSleepingProcess t n = T' ∧
      T'.sleepingProcesses =
        Function.update T.sleepingProcesses T.firstAvailableSpace ⟨t,n,T.first⟩ ∧
      T'.first = T.firstAvailableSpace ∧ T'.sleeping = T.sleeping+1 ∧
      T'.firstAvailableSpace = T'.getNextAvailableSpace := by
  refine ⟨_,if_pos h,rfl,rfl,rfl,rfl⟩

theorem Sound.nodes_add (h : T.Sound) (hroom : T.sleeping < maxSleeping)
    (hsp : T'.sleepingProcesses =
      Function.update T.sleepingProcesses T.firstAvailableSpace ⟨t,n,T.first⟩)
    (hfirst : T'.first = T.firstAvailableSpace) (hsleeping : T'.sleeping = T.sleeping+1) :
    T'.nodes = T.firstAvailableSpace::T.nodes := by
  obtain ⟨hlo,hhi,hfree⟩ := h.space hroom
  have hnot : T.firstAvailableSpace ∉ T.nodes := fun hm => hfree ((h.used_iff hlo hhi).mpr hm)
  obtain ⟨e,hp⟩ := path_follow T.links T.sleeping T.first
  apply nodes_eq (e := e)
  · refine ⟨hfirst,?_⟩
    rw [links,hsp,Function.update_self]
    apply hp.congr
    intro i hi
    have hne : i ≠ T.firstAvailableSpace := fun he => hnot (he ▸ hi)
    rw [links,hsp,Function.update_of_ne hne,links]
  · rw [hsleeping,List.length_cons,length_nodes]

theorem Accounted.addSleepingProcess (h : T.Accounted) (ht : T.sleeping < maxSleeping → t.used) :
    (T.addSleepingProcess t n).Accounted := by
  by_cases hroom : T.sleeping < maxSleeping
  swap
  · rw [Timer.addSleepingProcess,if_neg hroom]
    exact h
  obtain ⟨T',hT',hsp,hfirst,hsleeping,hspace⟩ := addSleepingProcess_room (t := t) (n := n) hroom
  rw [hT']
  obtain ⟨hlo,hhi,hfree⟩ := h.space hroom
  have hnodes := h.nodes_add hroom hsp hfirst hsleeping
  have hnot : T.firstAvailableSpace ∉ T.nodes := fun hm => hfree ((h.used_iff hlo hhi).mpr hm)
  have hnd : T'.nodes.Nodup := by
    rw [hnodes]
    exact List.nodup_cons.mpr ⟨hnot,h.nodup⟩
  have hexact : ∀ j, j ∈ T'.nodes ↔ 0 ≤ j ∧ j < maxSleeping ∧ (T'.sleepingProcesses j).id.used := by
    intro j
    rw [hnodes,List.mem_cons,h.exact,hsp]
    by_cases hj : j = T.firstAvailableSpace
    · subst hj
      simp [hlo,hhi,ht hroom]
    · rw [Function.update_of_ne hj]
      simp [hj]
  refine ⟨⟨hnd,hexact,fun hlt => ?_⟩,fun hfull => ?_⟩
  · have hused : ∀ j : ℤ, 0 ≤ j → j < maxSleeping →
        ((T'.sleepingProcesses j).id.used ↔ j ∈ T'.nodes) := by
      intro j hj hj'
      rw [hexact]
      exact ⟨fun hu => ⟨hj,hj',hu⟩,fun hu => hu.2.2⟩
    rw [hspace]
    exact TimerRun.getNextAvailableSpace_spec hused (by rwa [length_nodes])
  · rw [hspace]
    apply getNextAvailableSpace_full hnd _ hexact
    rw [length_nodes,hfull]

/-- An entry without a pid cannot be told from a free one. -/
theorem Sound.used_of_add (h : T.Sound) (hs : (T.addSleepingProcess t n).Sound)
    (hroom : T.sleeping < maxSleeping) : t.used := by
  obtain ⟨T',hT',hsp,hfirst,hsleeping,-⟩ := addSleepingProcess_room (t := t) (n := n) hroom
  rw [hT'] at hs
  have hmem : T.firstAvailableSpace ∈ T'.nodes := by
    rw [h.nodes_add hroom hsp hfirst hsleeping]
    exact List.mem_cons_self
  have hu := ((hs.exact _).mp hmem).2.2
  rwa [hsp,Function.update_self] at hu

/-! ### Removals -/

/-- The search walks the nodes up to the first one with the identity. -/
theorem search_spec {c q e : ℤ} (hp : Path T.links c xs e) :
    (T.search t xs.length q c = none ∧ ∀ j ∈ xs, (T.sleepingProcesses j).id ≠ t) ∨
      ∃ us j vs, xs = us++j::vs ∧ (∀ i ∈ us, (T.sleepingProcesses i).id ≠ t) ∧
        (T.sleepingProcesses j).id = t ∧
        T.search t xs.length q c = some (us.getLast?.getD q,j) := by
  induction xs generalizing c q with
  | nil => exact Or.inl ⟨rfl,by simp⟩
  | cons x xs ih =>
    obtain ⟨rfl,hp⟩ := hp
    by_cases hx : (T.sleepingProcesses c).id = t
    · refine Or.inr ⟨[],c,xs,rfl,by simp,hx,?_⟩
      rw [List.length_cons,search,if_pos hx]
      rfl
    · rw [List.length_cons,search,if_neg hx]
      rcases ih (q := c) hp with ⟨hs,hno⟩ | ⟨us,j,vs,rfl,hno,hj,hs⟩
      · refine Or.inl ⟨hs,fun j hj => ?_⟩
        rcases List.mem_cons.mp hj with rfl | hj
        · exact hx
        · exact hno j hj
      · refine Or.inr ⟨c::us,j,vs,rfl,fun i hi => ?_,hj,?_⟩
        · rcases List.mem_cons.mp hi with rfl | hi
          · exact hx
          · exact hno i hi
        · exact hs.trans (by cases us <;> simp [List.getLast?_cons])

structure Removed (q j : ℤ) (T T' : Timer) : Prop where
  links : T'.links = Function.update T.links q (T.links j)
  id : ∀ i, i ≠ j → (T'.sleepingProcesses i).id = (T.sleepingProcesses i).id
  freed : ¬ (T'.sleepingProcesses j).id.used
  sleeping : T'.sleeping = T.sleeping-1
  first : T'.first = T.first
  space : T'.firstAvailableSpace =
    if T.firstAvailableSpace > j then j else T.firstAvailableSpace

theorem removeSleepingProcess_found {q : ℤ}
    (hs : T.search t T.sleeping T.first T.first = some (q,j))
    (h : T.removeSleepingProcess t = some T') : Removed q j T T' := by
  simp only [removeSleepingProcess,hs,changeThreadState,Option.bind_eq_bind,
    Option.bind_eq_some_iff,Option.map_eq_some_iff,Option.pure_def,Option.some.injEq] at h
  obtain ⟨_,⟨ps,-,rfl⟩,rfl⟩ := h
  refine ⟨?_,fun i hi => ?_,?_,rfl,rfl,rfl⟩
  · funext i
    by_cases hq : i = q
    · subst hq
      by_cases hj : j = i <;> simp [Timer.links,setEntry,hj]
    · by_cases hj : i = j
      · subst hj
        simp [Timer.links,setEntry,hq]
      · simp [Timer.links,setEntry,hq,hj]
  · by_cases hq : i = q
    · subst hq
      simp [setEntry,hi]
    · simp [setEntry,hq,hi]
  · by_cases hj : j = q <;> simp [setEntry,hj,ThreadId.used]

/-- The search from `first` over the nodes. -/
theorem search_nodes (t : ThreadId) :
    (T.search t T.sleeping T.first T.first = none ∧
      ∀ j ∈ T.nodes, (T.sleepingProcesses j).id ≠ t) ∨
    ∃ us j vs, T.nodes = us++j::vs ∧ (∀ i ∈ us, (T.sleepingProcesses i).id ≠ t) ∧
      (T.sleepingProcesses j).id = t ∧
      T.search t T.sleeping T.first T.first = some (us.getLast?.getD T.first,j) := by
  obtain ⟨e,hp⟩ := path_follow T.links T.sleeping T.first
  have h := search_spec (t := t) (q := T.first) hp
  rwa [length_follow] at h

theorem removeSleepingProcess_none (hs : T.search t T.sleeping T.first T.first = none) :
    T.removeSleepingProcess t = some T := by
  simp only [removeSleepingProcess,hs]

theorem head_nodes {us vs : List ℤ} (hn : T.nodes = us++j::vs) :
    T.first = us.head?.getD j := by
  have hpos : T.sleeping ≠ 0 := by
    rw [← length_nodes,hn,List.length_append,List.length_cons]
    omega
  obtain ⟨n,hs⟩ := Nat.exists_eq_succ_of_ne_zero hpos
  unfold nodes at hn
  rw [hs,Nat.succ_eq_add_one,follow] at hn
  cases us with
  | nil => exact (List.cons.inj hn).1
  | cons u us => exact (List.cons.inj hn).1

/-- Behind the head a node is taken out of the chain, and alone it is the whole chain. -/
theorem Removed.nodes {us vs : List ℤ} (h : Removed (us.getLast?.getD T.first) j T T')
    (hn : T.nodes = us++j::vs) (hnd : T.nodes.Nodup) (hcalm : us = [] → vs = []) :
    T'.nodes = us++vs := by
  obtain ⟨e,hp⟩ := path_follow T.links T.sleeping T.first
  have hlen : T'.sleeping = (us++vs).length := by
    have hl := length_nodes (T := T)
    rw [hn] at hl
    simp only [List.length_append,List.length_cons] at hl ⊢
    rw [h.sleeping]
    omega
  change Path T.links T.first T.nodes e at hp
  rw [hn] at hp hnd
  rcases List.eq_nil_or_concat' us with rfl | ⟨us,q,rfl⟩
  · obtain rfl := hcalm rfl
    exact nodes_eq (e := T'.first) rfl hlen
  · have hlinks := h.links
    rw [List.getLast?_concat,Option.getD_some] at hlinks
    rw [List.append_assoc] at hp hnd ⊢
    have hx : q ∉ us := by
      intro hq
      exact (List.nodup_append.mp hnd).2.2 q hq q List.mem_cons_self rfl
    have hy : q ∉ vs := by
      intro hq
      have hcons := (List.nodup_append.mp hnd).2.1
      exact (List.nodup_cons.mp hcons).1 (List.mem_cons_of_mem _ hq)
    apply nodes_eq (e := e)
    · rw [hlinks,h.first]
      exact hp.skip hx hy
    · rwa [List.append_assoc] at hlen

theorem Removed.accounted {us vs : List ℤ} (h : Removed (us.getLast?.getD T.first) j T T')
    (hs : T.Accounted) (hn : T.nodes = us++j::vs) (hcalm : us = [] → vs = [])
    (hroom : T.sleeping < maxSleeping) : T'.Accounted := by
  have hnodes := h.nodes hn hs.nodup hcalm
  have hnd := hs.nodup
  rw [hn] at hnd
  have hnot : j ∉ us++vs := (List.nodup_middle.mp hnd |> List.nodup_cons.mp).1
  have hmem : ∀ i, i ∈ T'.nodes ↔ i ∈ T.nodes ∧ i ≠ j := by
    intro i
    rw [hnodes,hn]
    simp only [List.mem_append,List.mem_cons]
    constructor
    · rintro hi
      refine ⟨by tauto,fun he => hnot ?_⟩
      rw [← he]
      exact List.mem_append.mpr hi
    · rintro ⟨hi,hne⟩
      tauto
  obtain ⟨hlo,hhi,hfree⟩ := hs.space hroom
  have hj : 0 ≤ j ∧ j < maxSleeping := by
    have hj := (hs.exact j).mp (by rw [hn]; simp)
    exact ⟨hj.1,hj.2.1⟩
  refine ⟨⟨?_,fun i => ?_,fun _ => ?_⟩,fun hfull => ?_⟩
  · rw [hnodes]
    exact (List.nodup_cons.mp (List.nodup_middle.mp hnd)).2
  · rw [hmem,hs.exact]
    by_cases hi : i = j
    · subst hi
      simp [h.freed]
    · rw [h.id i hi]
      simp [hi]
  · rw [h.space]
    split
    · exact ⟨hj.1,hj.2,h.freed⟩
    · refine ⟨hlo,hhi,?_⟩
      by_cases hk : T.firstAvailableSpace = j
      · rw [hk]
        exact h.freed
      · rw [h.id _ hk]
        exact hfree
  · have hsl := h.sleeping
    omega

theorem Accounted.step {l : SleepStep} (hs : T.Accounted) (hl : T.Fits l)
    (h : T.step l = some T') : T'.Accounted := by
  cases l with
  | add t n =>
    simp only [Timer.step,Option.some.injEq] at h
    subst h
    exact hs.addSleepingProcess hl
  | remove t =>
    rw [Timer.step] at h
    rcases search_nodes (T := T) t with ⟨hnone,-⟩ | ⟨us,j,vs,hn,-,hj,hfound⟩
    · rw [removeSleepingProcess_none hnone,Option.some.injEq] at h
      subst h
      exact hs
    · obtain ⟨hroom,hhead⟩ := hl ⟨j,by rw [hn]; simp,hj⟩
      apply (removeSleepingProcess_found hfound h).accounted hs hn _ hroom
      rintro rfl
      have hone := hhead (by rw [head_nodes hn]; exact hj)
      rw [← length_nodes,hn] at hone
      simpa using hone
  | processes ps =>
    simp only [Timer.step,Option.some.injEq] at h
    subst h
    exact ⟨⟨hs.nodup,hs.exact,hs.space⟩,hs.full⟩

/-- Any other step leaves a table that is no longer sound. -/
theorem Accounted.fits {l : SleepStep} (hs : T.Accounted) (h : T.step l = some T')
    (hs' : T'.Sound) : T.Fits l := by
  cases l with
  | add t n =>
    simp only [Timer.step,Option.some.injEq] at h
    subst h
    exact fun hroom => hs.toSound.used_of_add hs' hroom
  | remove t =>
    rintro ⟨i,hi,hid⟩
    rw [Timer.step] at h
    rcases search_nodes (T := T) t with ⟨-,hno⟩ | ⟨us,j,vs,hn,hno,-,hfound⟩
    · exact absurd hid (hno i hi)
    have hr := removeSleepingProcess_found hfound h
    have hpos : 0 < T.sleeping := by
      rw [← length_nodes]
      exact List.length_pos_of_mem hi
    have hroom : T.sleeping < maxSleeping := by
      by_contra hfull
      have heq : T.sleeping = maxSleeping := le_antisymm hs.sleeping_le (Nat.le_of_not_lt hfull)
      obtain ⟨hlo,-,-⟩ := hs'.space (by rw [hr.sleeping]; omega)
      have hj := (hs.exact j).mp (by rw [hn]; simp)
      rw [hr.space,hs.full heq,if_neg (by omega)] at hlo
      omega
    refine ⟨hroom,fun hhead => ?_⟩
    by_contra hmany
    have hfirst : T'.first ∈ T'.nodes := first_mem (by rw [hr.sleeping]; omega)
    have hu := ((hs'.exact _).mp hfirst).2.2
    rw [hr.first] at hu
    cases us with
    | nil =>
      rw [head_nodes hn] at hu
      exact hr.freed hu
    | cons u us =>
      rw [head_nodes hn] at hhead
      exact hno u List.mem_cons_self hhead
  | processes ps => trivial

/-- Over every run of additions and removals the table is sound in every state exactly
if each step meets its condition. -/
theorem sleep_list {ps : ℤ → Option Process} {ls : List SleepStep} {T : Timer}
    (h : Runs.run step (initializeTimer ps) ls = some T) :
    Runs.Always step Sound (initializeTimer ps) ls ↔
      Runs.Along step Fits (initializeTimer ps) ls := by
  apply Runs.always_iff_along (I := Accounted) (fun T hT => hT.toSound)
  · exact fun T l T' hT hl hl' => hT.step hl hl'
  · exact fun T l T' hT hl hT' => hT.fits hl hT'
  · exact initializeTimer_accounted ps
  · exact h

/-- Of two sleepers the older one is woken first. -/
theorem sleep_list_older : ∃ T, Runs.run step (initializeTimer (fun _ => none))
      [.add ⟨1,0⟩ 3,.add ⟨2,0⟩ 9,.remove ⟨1,0⟩] = some T ∧
    Runs.Always step Sound (initializeTimer (fun _ => none))
      [.add ⟨1,0⟩ 3,.add ⟨2,0⟩ 9,.remove ⟨1,0⟩] := by
  refine ⟨_,rfl,(sleep_list rfl).mpr ?_⟩
  decide

/-- Where the younger one is woken first, the list starts at its freed slot. -/
theorem not_sleep_list : ∃ ls, (Runs.run step (initializeTimer (fun _ => none)) ls).isSome ∧
    ¬ Runs.Always step Sound (initializeTimer (fun _ => none)) ls := by
  refine ⟨[.add ⟨1,0⟩ 9,.add ⟨2,0⟩ 3,.remove ⟨2,0⟩],rfl,fun h => ?_⟩
  have hs := h _ _ (List.prefix_refl _) rfl
  have hmem := (hs.exact 1).mp (List.mem_of_getElem? (i := 0) rfl)
  exact hmem.2.2 rfl

end ComplexOS.Timer
