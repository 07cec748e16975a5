import ComplexOS.Userland.ProdConsKernel
import Mathlib.Algebra.Order.BigOperators.Group.List
import Mathlib.Algebra.Order.Ring.Nat

/-! # Progress of the producers and consumers

While no worker has been killed with the mutex and not all permits have gone with workers,
somebody can always take a step and the items keep moving. Otherwise they stand still for
good.
-/
namespace ComplexOS
open Census

namespace Worker

/-- How many statements come before the one that moves an item. -/
def distance (w : Worker) : ℕ :=
  let last := if w.produces then 0 else 1
  match w.phase with
  | .lowered => 0
  | .locked => last
  | .permitted => last+1
  | .waiting => last+2
  | .looking => last+3
  | .sleeping => last+4
  | .printing => last+5
  | .released => last+6
  | .moved => last+7

theorem distance_le (w : Worker) : w.distance ≤ 8 := by
  have hlast : (if w.produces then 0 else 1) ≤ 1 := by
    split <;> omega
  rw [distance]
  cases w.phase <;> simp only <;> omega

end Worker

namespace ProdCons
variable {s s' : ProdCons} {w w' : Worker} {a a' : Atomic.Objects ℤ ℤ ThreadId} {i : ℕ}
  {stock : List UInt8} {l : ProdConsStep} {ls : List ProdConsStep}

/-- Neither a worker's permits nor the mutex are out of reach. -/
def Served (s : ProdCons) : Prop :=
  s.wedged = false ∧ s.lostEmpty+s.lostProduced < maxBuffer

def Statements (ls : List ProdConsStep) : Prop := ∀ l ∈ ls, ∃ i, l = .statement i

/-- Whatever the workers do, some worker can go on, and before long an item is moved. -/
structure Flows (s : ProdCons) (a : Atomic.Objects ℤ ℤ ThreadId) : Prop where
  possible : ∀ ls s' a', Statements ls → Runs.run system (s,a) ls = some (s',a') →
    ∃ i, (system (s',a') (.statement i)).isSome
  bounded : ∀ ls s' a', Statements ls → Runs.run system (s,a) ls = some (s',a') →
    s'.moves = s.moves → ls.length ≤ 8*s.workers.length

/-- Whatever happens, no item is moved any more. -/
def Stalled (s : ProdCons) (a : Atomic.Objects ℤ ℤ ThreadId) : Prop :=
  ∀ ls s' a', Runs.run system (s,a) ls = some (s',a') → s'.moves = s.moves

/-! ### Towards a move -/

theorem statement_distance (h : s.statement w = some (s',w')) (hp : w.puts = false)
    (ht : w.takes = false) : w'.distance+1 = w.distance := by
  have hph' := statement_phase h
  have hpr := (statement_steady h).produces
  cases hph : w.phase <;> cases hw : w.produces <;>
    simp [Worker.distance,Worker.puts,Worker.takes,Worker.after,hpr,hph',hph,hw] at hp ht ⊢

theorem step_statement : step s (.statement i) = some s' ↔ ∃ w s₁ w', s.workers[i]? = some w ∧
    s.statement w = some (s₁,w') ∧ s' = { s₁ with workers := s.workers.set i w' } := by
  simp only [step,Option.bind_eq_some_iff,Option.map_eq_some_iff,Prod.exists]
  constructor
  · rintro ⟨w,hi,s₁,w',hs,rfl⟩
    exact ⟨w,s₁,w',hi,hs,rfl⟩
  · rintro ⟨w,s₁,w',hi,hs,rfl⟩
    exact ⟨w,hi,s₁,w',hs,rfl⟩

theorem statement_still (h : s.statement w = some (s',w')) (hm : s'.moves = s.moves) :
    w.puts = false ∧ w.takes = false := by
  have hmoves := (statement_moved h).moves
  rw [hm] at hmoves
  have hnil := List.append_right_eq_self.mp hmoves.symm
  split at hnil
  · cases hnil
  · split at hnil
    · cases hnil
    · rename_i hp ht
      exact ⟨Bool.eq_false_of_not_eq_true hp,Bool.eq_false_of_not_eq_true ht⟩

structure Worse (s s' : ProdCons) : Prop where
  wedged : s.wedged = true → s'.wedged = true
  lost : s.lostEmpty+s.lostProduced ≤ s'.lostEmpty+s'.lostProduced

theorem killAt_aside {granted : Bool} (h : s.killAt i granted = some s') :
    s'.moves = s.moves ∧ Worse s s' := by
  obtain ⟨w,v,-,rfl,-⟩ := killAt_some h
  refine ⟨rfl,fun hw => Bool.or_eq_true_iff.mpr (Or.inl hw),?_⟩
  simp only [kill]
  omega

/-- What is no statement of a worker moves nothing. -/
theorem step_aside (h : step s l = some s') (hl : ∀ i, l ≠ .statement i) :
    s'.moves = s.moves ∧ Worse s s' := by
  cases l with
  | signal =>
    obtain ⟨-,h⟩ := Option.ite_none_right_eq_some.mp h
    obtain rfl := Option.some.inj h
    exact ⟨rfl,id,le_rfl⟩
  | create pid produces =>
    obtain ⟨-,h⟩ := Option.ite_none_right_eq_some.mp h
    obtain ⟨s₁,hs₁,rfl⟩ := Option.map_eq_some_iff.mp h
    obtain ⟨pi,pp,ci,cp,rfl⟩ := record_controls hs₁
    exact ⟨rfl,id,le_rfl⟩
  | refused ret produces =>
    obtain ⟨-,h⟩ := Option.ite_none_right_eq_some.mp h
    obtain ⟨pi,pp,ci,cp,rfl⟩ := record_controls h
    exact ⟨rfl,id,le_rfl⟩
  | remove produces granted =>
    obtain ⟨pi,pp,ci,cp,hrest⟩ := withdraw_controls (s := s) produces
    simp only [step,hrest] at h
    split at h
    · obtain ⟨hm,hw⟩ := killAt_aside h
      exact ⟨hm,hw.wedged,hw.lost⟩
    · obtain ⟨-,h⟩ := Option.ite_none_left_eq_some.mp h
      obtain rfl := Option.some.inj h
      exact ⟨rfl,id,le_rfl⟩
  | statement i => exact absurd rfl (hl i)
  | kill i granted => exact killAt_aside h

/-- What has been moved stays moved. -/
theorem step_moves (h : step s l = some s') : s.moves <+: s'.moves := by
  cases l with
  | signal =>
    obtain ⟨-,h⟩ := Option.ite_none_right_eq_some.mp h
    obtain rfl := Option.some.inj h
    exact List.prefix_rfl
  | statement i =>
    obtain ⟨w,s₁,w',-,hs,rfl⟩ := step_statement.mp h
    exact ⟨_,(statement_moved hs).moves.symm⟩
  | _ => exact (step_aside h (fun _ => ProdConsStep.noConfusion)).1 ▸ List.prefix_rfl

theorem run_moves (h : Runs.run step s ls = some s') : s.moves <+: s'.moves :=
  Runs.invariant (I := fun x => s.moves <+: x.moves) (fun _ _ _ hx hs => hx.trans (step_moves hs))
    List.prefix_rfl h

/-- Without a move every statement brings somebody nearer to one. -/
theorem run_distance (hl : Statements ls) (h : Runs.run step s ls = some s')
    (hm : s'.moves = s.moves) :
    (s'.workers.map Worker.distance).sum+ls.length = (s.workers.map Worker.distance).sum := by
  induction ls generalizing s with
  | nil =>
    cases h
    rfl
  | cons l ls ih =>
    obtain ⟨t,ht,hr⟩ := Runs.run_cons.mp h
    obtain ⟨i,rfl⟩ := hl l List.mem_cons_self
    have hst : t.moves = s.moves := by
      have hlt := (run_moves hr).length_le
      rw [hm] at hlt
      exact ((step_moves ht).eq_of_length_le hlt).symm
    have hrest := ih (fun l' h' => hl l' (List.mem_cons_of_mem _ h')) hr (hm.trans hst.symm)
    obtain ⟨w,s₁,w',hi,hs,rfl⟩ := step_statement.mp ht
    obtain ⟨hp,htk⟩ := statement_still hs hst
    have hd := statement_distance hs hp htk
    have hsum := sum_set (f := Worker.distance) (b := w') hi
    simp only [List.length_cons] at hrest ⊢
    omega

/-! ### Somebody can go on -/

theorem operation_none (h : s.operation w = none) : Answered s w a a := by
  rw [Answered,h]
  rfl

theorem operation_some {e : Atomic.Operation ℤ ℤ} (h : s.operation w = some e)
    (ha : Atomic.step a (w.thread,e) = some a') : Answered s w a a' := by
  rw [Answered,h]
  exact Runs.run_cons.mpr ⟨a',ha,rfl⟩

theorem Ok.statement_some (h : Ok s a stock) (hw : w ∈ s.workers) :
    ∃ s' w', s.statement w = some (s',w') := by
  rw [ProdCons.statement]
  split
  · rename_i hp
    cases hph : w.phase <;> simp only [producer,hph] <;> try exact ⟨_,_,rfl⟩
    have := h.lowered w hw hph
    rw [hp] at this
    cases this
  · cases hph : w.phase <;> simp only [consumer,hph] <;> exact ⟨_,_,rfl⟩

theorem Ok.system_some (h : Ok s a stock) (hi : s.workers[i]? = some w) (ha : Answered s w a a') :
    (system (s,a) (.statement i)).isSome := by
  obtain ⟨s₁,w',hs⟩ := h.statement_some (List.mem_of_getElem? hi)
  have hstep : step s (.statement i) = some { s₁ with workers := s.workers.set i w' } :=
    step_statement.mpr ⟨w,s₁,w',hi,hs,rfl⟩
  have hshows : s.shows (.statement i) = ((s.operation w).map (fun e => (w.thread,e))).toList := by
    rw [shows,hi,Option.bind_some]
  exact Option.isSome_of_eq_some (Runs.drive_eq_some.mpr ⟨hstep,by rw [hshows]; exact ha⟩)

/-- Only the two calls that can block are ever in the way. -/
theorem answered_of_unblocked (h : w.phase ≠ .waiting) (h' : w.phase ≠ .permitted) :
    ∃ a', Answered s w a a' := by
  cases hph : w.phase with
  | waiting => exact absurd hph h
  | permitted => exact absurd hph h'
  | moved =>
    by_cases hm : a.holder s.bufferMutex = some w.thread
    · exact ⟨_,operation_some (by rw [operation,hph]) (Atomic.step_up hm)⟩
    · exact ⟨_,operation_some (by rw [operation,hph]) (Atomic.step_up_other hm)⟩
  | released => exact ⟨_,operation_some (by rw [operation,hph]) rfl⟩
  | _ => exact ⟨a,operation_none (by rw [operation,hph])⟩

/-- With everyone at a `wait`, one of the permits lies in a semaphore. -/
theorem Ok.permits_pos (h : Ok s a stock) (hsig : s.signalled = maxBuffer)
    (hlost : s.lostEmpty+s.lostProduced < maxBuffer) (hall : ∀ w ∈ s.workers, w.phase = .waiting) :
    a.permits s.emptySem ≠ 0 ∨ a.permits s.producedSem ≠ 0 := by
  have hclaims : ∀ p, s.workers.countP (Worker.claims p) = 0 := by
    refine fun p => List.countP_eq_zero.mpr (fun w hw => ?_)
    simp [Worker.claims,hall w hw]
  have howes : ∀ p, s.workers.countP (Worker.owes p) = 0 := by
    refine fun p => List.countP_eq_zero.mpr (fun w hw => ?_)
    simp [Worker.owes,hall w hw]
  have hempty := h.empty
  have hproduced := h.produced
  rw [hclaims,howes] at hempty hproduced
  omega

theorem Ok.possible (h : Ok s a stock) (hs : s.Served) (hsig : s.signalled = maxBuffer)
    (hp : ∃ w ∈ s.workers, w.produces = true) (hc : ∃ w ∈ s.workers, w.produces = false) :
    ∃ i, (system (s,a) (.statement i)).isSome := by
  obtain ⟨hwedged,hlost⟩ := hs
  have hmove : ∀ w ∈ s.workers, (∃ a', Answered s w a a') →
      ∃ i, (system (s,a) (.statement i)).isSome := by
    rintro w hw ⟨a',ha⟩
    obtain ⟨i,hi⟩ := List.mem_iff_getElem?.mp hw
    exact ⟨i,h.system_some hi ha⟩
  by_cases hfree : ∃ w ∈ s.workers, w.phase ≠ .waiting ∧ w.phase ≠ .permitted
  · obtain ⟨w,hw,h1,h2⟩ := hfree
    exact hmove w hw (answered_of_unblocked h1 h2)
  · push Not at hfree
    by_cases hdown : ∃ w ∈ s.workers, w.phase = .permitted
    · obtain ⟨w,hw,hph⟩ := hdown
      -- nobody is in the critical section, so the mutex is open
      have hopen : a.holder s.bufferMutex = none := by
        refine Option.eq_none_iff_forall_ne_some.mpr (fun t ht => ?_)
        obtain ⟨v,hv,hvc,-⟩ := h.held hwedged t ht
        have hvp := of_decide_eq_true hvc
        by_cases hvw : v.phase = .waiting
        · simp [hvw] at hvp
        · simp [hfree v hv hvw] at hvp
      exact hmove w hw ⟨_,operation_some (by rw [operation,hph]) (Atomic.step_down hopen)⟩
    · have hall : ∀ w ∈ s.workers, w.phase = .waiting := by
        intro w hw
        by_contra hne
        exact hdown ⟨w,hw,hfree w hw hne⟩
      rcases h.permits_pos hsig hlost hall with hpos | hpos
      · obtain ⟨w,hw,hwp⟩ := hp
        refine hmove w hw ⟨_,operation_some (e := .wait s.emptySem) ?_ (Atomic.step_wait hpos)⟩
        rw [operation,hall w hw]
        simp [hwp]
      · obtain ⟨w,hw,hwc⟩ := hc
        refine hmove w hw ⟨_,operation_some (e := .wait s.producedSem) ?_ (Atomic.step_wait hpos)⟩
        rw [operation,hall w hw]
        simp [hwc]

/-! ### The two ways it goes on -/

/-- Without the mutex or without permits nobody gets to the buffer. -/
theorem Ok.kept (h : Ok s a stock) (hs : ¬ s.Served) (hw : w ∈ s.workers) :
    w.puts = false ∧ w.takes = false := by
  by_contra hno
  have hmoves : w.critical = true ∧ (w.claims true = true ∨ w.claims false = true) := by
    by_cases hp : w.puts = true
    · obtain ⟨hpr,hph⟩ := of_decide_eq_true hp
      exact ⟨by simp [Worker.critical,hph],Or.inl (by simp [Worker.claims,hpr,hph])⟩
    · have ht : w.takes = true := by
        by_contra ht
        exact hno ⟨Bool.eq_false_of_not_eq_true hp,Bool.eq_false_of_not_eq_true ht⟩
      have hph := of_decide_eq_true ht
      exact ⟨by simp [Worker.critical,hph],
        Or.inr (by simp [Worker.claims,hph,h.lowered w hw hph])⟩
  obtain ⟨hcrit,hclaims⟩ := hmoves
  refine hs ⟨?_,?_⟩
  · by_contra hx
    have hnone := (h.wedged (Bool.eq_true_of_not_eq_false hx)).2 w hw
    rw [hcrit] at hnone
    cases hnone
  · have hempty := h.empty
    have hproduced := h.produced
    have hsig := h.signalled
    rcases hclaims with hc | hc <;> have hpos := List.countP_pos_iff.mpr ⟨w,hw,hc⟩ <;> omega

theorem step_worse (h : step s l = some s') : Worse s s' := by
  cases l with
  | statement i =>
    obtain ⟨w,s₁,w',-,hs,rfl⟩ := step_statement.mp h
    have hst := statement_steady hs
    exact ⟨fun hw => hst.wedged.trans hw,(congrArg₂ (· + ·) hst.lostEmpty hst.lostProduced).ge⟩
  | _ => exact (step_aside h (fun _ => ProdConsStep.noConfusion)).2

theorem step_kept (h : Ok s a stock) (hs : ¬ s.Served) (hstep : step s l = some s') :
    s'.moves = s.moves := by
  cases l with
  | statement i =>
    obtain ⟨w,s₁,w',hi,hst,rfl⟩ := step_statement.mp hstep
    obtain ⟨hp,ht⟩ := h.kept hs (List.mem_of_getElem? hi)
    show s₁.moves = s.moves
    rw [(statement_moved hst).moves,if_neg (by simp [hp]),if_neg (by simp [ht]),List.append_nil]
  | _ => exact (step_aside hstep (fun _ => ProdConsStep.noConfusion)).1

theorem Ok.stalled (h : Ok s a stock) (hs : ¬ s.Served) : Stalled s a := by
  intro ls s' a' hr
  refine (Runs.invariant (I := fun x => (∃ stock, Ok x.1 x.2 stock) ∧ ¬ x.1.Served ∧
    x.1.moves = s.moves) ?_ ⟨⟨stock,h⟩,hs,rfl⟩ hr).2.2
  rintro ⟨t,b⟩ l ⟨t',b'⟩ ⟨⟨st,hok⟩,hserved,hm⟩ hstep
  obtain ⟨stock',hok'⟩ := step_ok ⟨st,hok⟩ hstep
  obtain ⟨hst,-⟩ := Runs.drive_eq_some.mp hstep
  obtain ⟨hwedged,hlost⟩ := step_worse hst
  refine ⟨⟨stock',hok'⟩,fun hx => hserved ⟨?_,?_⟩,(step_kept hok hserved hst).trans hm⟩
  · by_contra hw
    have := hwedged (Bool.eq_true_of_not_eq_false hw)
    rw [hx.1] at this
    cases this
  · exact hlost.trans_lt hx.2

structure SameWorkers (s s' : ProdCons) : Prop where
  produces : s'.workers.map Worker.produces = s.workers.map Worker.produces
  signalled : s'.signalled = s.signalled
  served : s'.Served ↔ s.Served

theorem run_sameWorkers (hl : Statements ls) (h : Runs.run step s ls = some s') :
    SameWorkers s s' := by
  induction ls generalizing s with
  | nil =>
    cases h
    exact ⟨rfl,rfl,Iff.rfl⟩
  | cons l ls ih =>
    obtain ⟨t,ht,hr⟩ := Runs.run_cons.mp h
    obtain ⟨i,rfl⟩ := hl l List.mem_cons_self
    obtain ⟨hp,hsig,hserved⟩ := ih (fun l' h' => hl l' (List.mem_cons_of_mem _ h')) hr
    obtain ⟨w,s₁,w',hi,hs,rfl⟩ := step_statement.mp ht
    have hst := statement_steady hs
    refine ⟨hp.trans (map_set_same hi hst.produces),hsig.trans hst.signalled,hserved.trans ?_⟩
    rw [Served,Served]
    simp only [hst.wedged,hst.lostEmpty,hst.lostProduced]

theorem Ok.flows (h : Ok s a stock) (hs : s.Served) (hsig : s.signalled = maxBuffer)
    (hp : true ∈ s.workers.map Worker.produces) (hc : false ∈ s.workers.map Worker.produces) :
    Flows s a := by
  constructor
  · intro ls s' a' hl hr
    obtain ⟨stock',h'⟩ := Runs.invariant (I := fun x => ∃ stock, Ok x.1 x.2 stock)
      (fun _ _ _ hx ht => step_ok hx ht) ⟨stock,h⟩ hr
    obtain ⟨hpr,hsg,hsv⟩ := run_sameWorkers hl (Runs.run_drive.mp hr).1
    rw [← hpr] at hp hc
    exact h'.possible (hsv.mpr hs) (hsg.trans hsig) (List.mem_map.mp hp) (List.mem_map.mp hc)
  · intro ls s' a' hl hr hm
    have hd := run_distance hl (Runs.run_drive.mp hr).1 hm
    have hle := List.sum_le_card_nsmul (s.workers.map Worker.distance) 8 (fun x hx => by
      obtain ⟨w,-,rfl⟩ := List.mem_map.mp hx
      exact w.distance_le)
    rw [List.length_map] at hle
    change _ ≤ s.workers.length*8 at hle
    omega

variable {main : ThreadId} {bufferMutex emptySem producedSem : ℤ} {buffer : ℤ → UInt8}

/-- With a producer and a consumer at work the items move on exactly until a worker has been
killed with the mutex or all permits are gone, and then never again. Each of these runs is one
of a kernel in which the threads are READY and the objects fresh. -/
theorem progress (hne : emptySem ≠ producedSem)
    (hr : Runs.run system (start main bufferMutex emptySem producedSem buffer,
      ⟨fun _ => 0,fun _ => none⟩) ls = some (s,a))
    (hsig : s.signalled = maxBuffer) (hp : true ∈ s.workers.map Worker.produces)
    (hc : false ∈ s.workers.map Worker.produces) :
    (s.Served → Flows s a) ∧ (¬ s.Served → Stalled s a) ∧
      ∀ o T k, ObjectRun.Starts o (fun _ => 0) k → ObjectRun.Staffed T k →
        Placed o T (start main bufferMutex emptySem producedSem buffer) →
        (∀ l ∈ ls, Hires T l) →
        Realized o k (start main bufferMutex emptySem producedSem buffer) ls a := by
  obtain ⟨stock,h⟩ := run_ok hne hr
  exact ⟨fun hs => h.flows hs hsig hp hc,h.stalled,
    fun o T k hk hT hplaced hl => run_realized hk hT hne hplaced hl hr⟩

/-- Two producers and a consumer; the second producer calls `mutexDown` next. -/
def crew : List ProdConsStep :=
  List.replicate 5 .signal++[.create 2 true,.create 3 false,.create 4 true]++
    List.replicate 3 (.statement 2)

theorem progress_crew :
    (∃ s a, Runs.run system (start ⟨1,0⟩ 3 0 1 (fun _ => 0),⟨fun _ => 0,fun _ => none⟩) crew =
      some (s,a) ∧ Flows s a ∧
        Realized ⟨{3},{0,1}⟩ prodConsKernel (start ⟨1,0⟩ 3 0 1 (fun _ => 0)) crew a) ∧
    ∃ s a, Runs.run system (start ⟨1,0⟩ 3 0 1 (fun _ => 0),⟨fun _ => 0,fun _ => none⟩)
      (crew++[.kill 2 true]) = some (s,a) ∧ Stalled s a := by
  have hcrew : ∃ s a, Runs.run system (start ⟨1,0⟩ 3 0 1 (fun _ => 0),
      ⟨fun _ => 0,fun _ => none⟩) crew = some (s,a) ∧ s.signalled = maxBuffer ∧
      s.workers.map Worker.produces = [true,false,true] ∧ s.wedged = false ∧
      s.lostEmpty = 0 ∧ s.lostProduced = 0 := ⟨_,_,rfl,rfl,rfl,rfl,rfl,rfl⟩
  have hkilled : ∃ s a, Runs.run system (start ⟨1,0⟩ 3 0 1 (fun _ => 0),
      ⟨fun _ => 0,fun _ => none⟩) (crew++[.kill 2 true]) = some (s,a) ∧ s.signalled = maxBuffer ∧
      s.workers.map Worker.produces = [true,false] ∧ s.wedged = true := ⟨_,_,rfl,rfl,rfl,rfl⟩
  obtain ⟨s,a,hr,hsig,hp,hw,he,hl⟩ := hcrew
  obtain ⟨s',a',hr',hsig',hp',hw'⟩ := hkilled
  obtain ⟨hflows,-,hrealized⟩ := progress (by decide) hr hsig (by simp [hp]) (by simp [hp])
  obtain ⟨-,hstalled,-⟩ := progress (by decide) hr' hsig' (by simp [hp']) (by simp [hp'])
  refine ⟨⟨s,a,hr,hflows ⟨hw,?_⟩,hrealized _ _ _ prodConsKernel_starts prodConsKernel_staffed
    start_placed (by decide)⟩,⟨s',a',hr',hstalled (fun hs => ?_)⟩⟩
  · rw [he,hl]
    decide
  · rw [hs.1] at hw'
    cases hw'

end ProdCons
end ComplexOS
