import ComplexOS.Ipc.PipeRuns

/-! # How much goes through a pipe

Whatever the order in which the threads take their statements, in the end the same number of
bytes has gone in and come out. Every statement leaves one less to take, and nobody waits where
bytes and room are left. The semaphores and the lock of the pipe are ideal: any number of
threads may wait, where the kernel's lists have places for `maxBlocked`.
-/
namespace ComplexOS
open Census Runs

def PipePhase.next : PipePhase → PipePhase
  | .waiting => .permitted
  | .permitted => .locked
  | .locked => .copied
  | .copied => .advanced
  | .advanced => .released
  | .released => .waiting

namespace PipeCall
variable (c : PipeCall)

def left : ℕ := (if c.phase = .copied then c.bytes-1 else c.bytes).toNat

def due (writes : Bool) (c : PipeCall) : ℕ := if c.writes = writes then c.left else 0

/-- The statements that are still to be taken, with the return. -/
def work : ℕ :=
  match c.phase with
  | .waiting => 6*c.left+1
  | .permitted => 6*c.left
  | .locked => 6*c.left-1
  | .copied => 6*c.left+4
  | .advanced => 6*c.left+3
  | .released => 6*c.left+2

structure Sane : Prop where
  index : 0 ≤ c.i
  bytes : 0 ≤ c.bytes
  fits : c.i+c.left ≤ maxInt
  pending : c.phase = .permitted ∨ c.phase = .locked ∨ c.phase = .copied → 0 < c.bytes

structure Turn (c c' : PipeCall) : Prop where
  writes : c'.writes = c.writes
  thread : c'.thread = c.thread
  phase : c'.phase = c.phase.next
  index : if c.phase = .locked then increment c.i = some c'.i else c'.i = c.i
  bytes : if c.phase = .copied then decrement c.bytes = some c'.bytes else c'.bytes = c.bytes

variable {c} {c' : PipeCall}

theorem increment_some {v w : ℤ} (h : increment v = some w) : w = v+1 := by
  rw [increment,Option.ite_none_right_eq_some,Option.some.injEq] at h
  exact h.2.symm

theorem decrement_some {v w : ℤ} (h : decrement v = some w) : w = v-1 := by
  rw [decrement,Option.ite_none_right_eq_some,Option.some.injEq] at h
  exact h.2.symm

theorem Turn.due (h : Turn c c') (hs : c.Sane) (w : Bool) :
    c'.due w+(c.accesses w).toNat = c.due w := by
  obtain ⟨hw,-,hph,-,hb⟩ := h
  have hpos := hs.pending
  by_cases hwrites : c.writes = w
  · simp only [PipeCall.due,hw,left,hph,accesses,hwrites,true_and]
    cases hc : c.phase <;> simp only [hc,reduceCtorEq,if_true,if_false,PipePhase.next] at hb hpos ⊢
    case locked =>
      have := hpos (by simp)
      simp only [hb,decide_true,Bool.toNat_true]
      omega
    case copied =>
      rw [decrement_some hb]
      simp
    all_goals simp [hb]
  · simp [PipeCall.due,hw,hwrites,accesses]

theorem Turn.work (h : Turn c c') (hs : c.Sane) : c'.work+1 = c.work := by
  obtain ⟨-,-,hph,-,hbytes⟩ := h
  have hpos := hs.pending
  unfold PipeCall.work left
  rw [hph]
  cases hc : c.phase <;>
    simp only [hc,reduceCtorEq,if_true,if_false,PipePhase.next] at hbytes hpos ⊢
  case permitted =>
    have := hpos (by simp)
    rw [hbytes]
    omega
  case locked =>
    have := hpos (by simp)
    rw [hbytes]
    omega
  case copied => rw [decrement_some hbytes]
  all_goals rw [hbytes]

theorem Turn.sane (h : Turn c c') (hs : c.Sane) (hb : c.phase = .waiting → c.bytes ≠ 0) :
    c'.Sane := by
  obtain ⟨-,-,hph,hi,hbytes⟩ := h
  obtain ⟨hindex,hnn,hfits,hpos⟩ := hs
  unfold left at hfits
  constructor
  · cases hc : c.phase <;> simp only [hc,reduceCtorEq,if_true,if_false] at hi
    case locked =>
      rw [increment_some hi]
      omega
    all_goals rwa [hi]
  · cases hc : c.phase <;> simp only [hc,reduceCtorEq,if_true,if_false] at hbytes hpos
    case copied =>
      have := hpos (by simp)
      rw [decrement_some hbytes]
      omega
    all_goals rwa [hbytes]
  · unfold left
    rw [hph]
    cases hc : c.phase <;>
      simp only [hc,reduceCtorEq,if_true,if_false,PipePhase.next] at hi hbytes hpos hfits ⊢
    case locked =>
      have := hpos (by simp)
      rw [increment_some hi,hbytes]
      omega
    case copied =>
      rw [decrement_some hbytes,hi]
      exact hfits
    all_goals
      rw [hi,hbytes]
      exact hfits
  · rw [hph]
    cases hc : c.phase <;>
      simp only [hc,reduceCtorEq,if_true,if_false,PipePhase.next] at hbytes hpos hb ⊢
    case waiting =>
      intro _
      have := hb trivial
      rw [hbytes]
      omega
    case permitted | locked =>
      intro _
      have := hpos (by simp)
      rw [hbytes]
      omega
    all_goals simp

end PipeCall

namespace Pipe
variable {p p' : Pipe} {c c' : PipeCall} {t : ThreadId}

theorem round_turn (h : p.round c = some (p',c')) : c.Turn c' := by
  rw [round] at h
  cases hw : c.writes <;> cases hph : c.phase <;>
    simp only [hw,Bool.false_eq_true,if_true,if_false,writePipe,readPipe,mutexDown,mutexUp,hph,
      Option.ite_none_left_eq_some,Option.ite_none_right_eq_some,Option.map_eq_some_iff,
      Option.some.injEq,Prod.mk.injEq] at h
  case false.locked | true.locked =>
    obtain ⟨i,hi,-,rfl⟩ := h
    exact ⟨hw.symm,rfl,by rw [hph]; rfl,by rw [if_pos hph]; exact hi,by rw [hph]; rfl⟩
  case false.copied | true.copied =>
    obtain ⟨bytes,hbytes,-,rfl⟩ := h
    exact ⟨hw.symm,rfl,by rw [hph]; rfl,by rw [hph]; rfl,by rw [if_pos hph]; exact hbytes⟩
  case false.waiting | true.waiting | false.permitted | true.permitted =>
    obtain ⟨-,-,rfl⟩ := h
    exact ⟨hw.symm,rfl,by rw [hph]; rfl,by rw [hph]; rfl,by rw [hph]; rfl⟩
  all_goals
    obtain ⟨-,rfl⟩ := h
    exact ⟨hw.symm,rfl,by rw [hph]; rfl,by rw [hph]; rfl,by rw [hph]; rfl⟩

def Blocked (p : Pipe) (c : PipeCall) : Prop :=
  c.phase = .waiting ∧ (if c.writes then p.semWrite else p.semRead) = 0 ∨
    c.phase = .permitted ∧ p.mutex ≠ none

theorem round_isSome (hs : c.Sane) (hb : ¬ p.Blocked c) : (p.round c).isSome := by
  obtain ⟨hindex,hnn,hfits,hpos⟩ := hs
  unfold PipeCall.left at hfits
  unfold Blocked at hb
  rw [round]
  cases hw : c.writes <;> cases hph : c.phase <;>
    simp only [hw,hph,Bool.false_eq_true,reduceCtorEq,if_true,if_false,true_and,false_and,or_false,
      false_or,not_not] at hb hpos hfits ⊢
  case false.locked | true.locked =>
    have hlt : c.i < maxInt := by
      have := hpos (by simp)
      omega
    simp [writePipe,readPipe,hph,increment,hlt]
  case false.copied | true.copied =>
    have hlt : -maxInt-1 < c.bytes := by
      have := hpos (by simp)
      unfold maxInt
      omega
    simp [writePipe,readPipe,hph,decrement,hlt]
  all_goals simp [writePipe,readPipe,mutexDown,mutexUp,hph,hb]

/-- Who holds the mutex after a round is in the critical section, or was not the caller. -/
theorem Round.held (h : Round p c p' c') (ht : p'.mutex = some t) :
    (c'.Critical ∧ c'.thread = t) ∨ (p.mutex = some t ∧ ¬ (c.Critical ∧ c.thread = t)) := by
  have hstays : c'.thread = c.thread := h.thread
  by_cases he : c.thread = t
  · cases h with
    | down hph hm => exact Or.inl ⟨Or.inl rfl,he⟩
    | store hw hph i => exact Or.inl ⟨Or.inr (Or.inl rfl),he⟩
    | take hw hph i => exact Or.inl ⟨Or.inr (Or.inl rfl),he⟩
    | advanceWrite hw hph bytes => exact Or.inl ⟨Or.inr (Or.inr rfl),he⟩
    | advanceRead hw hph bytes => exact Or.inl ⟨Or.inr (Or.inr rfl),he⟩
    | up hph =>
      simp only [he] at ht
      split at ht
      · cases ht
      · contradiction
    | _ hw hph => exact Or.inr ⟨ht,fun hc => by simp [PipeCall.Critical,hph] at hc⟩
  · refine Or.inr ⟨?_,fun hc => he hc.2⟩
    cases h with
    | down hph hm => exact absurd (Option.some.inj ht) he
    | up hph =>
      dsimp only at ht
      split at ht
      · cases ht
      · exact ht
    | _ => exact ht

end Pipe

def PipeStep.Moves : PipeStep → Prop
  | .round _ => True
  | .leave _ => True
  | _ => False

def PipeStep.Proper : PipeStep → Prop
  | .call _ _ _ bytes => 0 ≤ bytes ∧ bytes ≤ maxInt
  | _ => True

def PipeStep.asks (writes : Bool) : PipeStep → ℕ
  | .call _ w _ bytes => if w = writes then bytes.toNat else 0
  | _ => 0

namespace PipeRun
open Pipe

def asked (writes : Bool) (ls : List PipeStep) : ℕ := (ls.map (PipeStep.asks writes)).sum

variable (s : PipeRun)

def moved (writes : Bool) : List UInt8 := if writes then s.stored else s.taken

def work : ℕ := (s.callers.map PipeCall.work).sum

def Quiescent : Prop := ∀ l : PipeStep, l.Moves → s.step l = none

structure Due (tr : List PipeStep) (s : PipeRun) : Prop where
  ok : ∃ unread, s.Ok unread
  held : ∀ t, s.pipe.mutex = some t → ∃ c ∈ s.callers, c.Critical ∧ c.thread = t
  sane : ∀ c ∈ s.callers, c.Sane
  due : ∀ w, (s.moved w).length+(s.callers.map (PipeCall.due w)).sum = asked w tr

variable {s} {t : PipeRun} {tr ls ks : List PipeStep} {l : PipeStep} {i : ℕ} {p' : Pipe}
  {c c' d : PipeCall}

theorem asked_append (w : Bool) : asked w (ls++ks) = asked w ls+asked w ks := by
  rw [asked,List.map_append,List.sum_append]
  rfl

theorem asked_moves (w : Bool) (h : ∀ l ∈ ls, l.Moves) : asked w ls = 0 := by
  induction ls with
  | nil => rfl
  | cons l ls ih =>
    have hl : l.asks w = 0 := by
      have := h l List.mem_cons_self
      cases l with
      | round i | leave i => rfl
      | call | userMemory => cases this
    have hls := ih (fun k hk => h k (List.mem_cons_of_mem _ hk))
    rw [asked] at hls ⊢
    rw [List.map_cons,List.sum_cons,hl,hls]

theorem start_due (buffer : ℕ → UInt8) : Due [] (start buffer) := by
  refine ⟨⟨[],start_ok buffer⟩,fun t ht => ?_,fun c hc => absurd hc List.not_mem_nil,fun w => ?_⟩
  · cases ht
  · cases w <;> rfl

theorem length_moved (w : Bool) : ((s.after i p' c c').moved w).length =
    (s.moved w).length+(c.accesses w).toNat := by
  cases w
  · exact length_taken
  · exact length_stored

/-! ### One step -/

theorem Due.round (h : Due tr s) (hi : s.callers[i]? = some c)
    (hb : ¬ (c.phase = .waiting ∧ c.bytes = 0)) (hr : s.pipe.round c = some (p',c')) :
    Due (tr++[.round i]) (s.after i p' c c') := by
  obtain ⟨unread,hok⟩ := h.ok
  have hturn := round_turn hr
  have hc : c ∈ s.callers := List.mem_of_getElem? hi
  refine ⟨hok.round hi (round_cases hr),fun t ht => ?_,fun d hd => ?_,fun w => ?_⟩
  · rcases (round_cases hr).held ht with hcrit | ⟨hm,hn⟩
    · exact ⟨c',mem_set_self hi,hcrit⟩
    · obtain ⟨d,hd,hcrit⟩ := h.held t hm
      obtain ⟨j,hj⟩ := List.mem_iff_getElem?.mp hd
      refine ⟨d,mem_set_of_ne hj ?_,hcrit⟩
      rintro rfl
      rw [Option.some.inj (hj.symm.trans hi)] at hcrit
      exact hn hcrit
  · rcases mem_set_cases hd with rfl | ⟨j,-,hj⟩
    · exact hturn.sane (h.sane c hc) fun hph he => hb ⟨hph,he⟩
    · exact h.sane d (List.mem_of_getElem? hj)
  · have hsum := sum_set (f := PipeCall.due w) (b := c') hi
    have hdue := hturn.due (h.sane c hc) w
    have hold := h.due w
    have hnone : asked w [.round i] = 0 := rfl
    rw [asked_append,hnone,length_moved]
    change _+((s.callers.set i c').map (PipeCall.due w)).sum = _
    omega

theorem Due.leave (h : Due tr s) (hi : s.callers[i]? = some c) (hph : c.phase = .waiting)
    (hz : c.bytes = 0) : Due (tr++[.leave i]) { s with callers := s.callers.eraseIdx i } := by
  obtain ⟨unread,hok⟩ := h.ok
  refine ⟨⟨unread,hok.leave hi hph⟩,fun t ht => ?_,fun d hd => ?_,fun w => ?_⟩
  · obtain ⟨d,hd,hcrit⟩ := h.held t ht
    obtain ⟨j,hj⟩ := List.mem_iff_getElem?.mp hd
    refine ⟨d,List.mem_eraseIdx_iff_getElem?.mpr ⟨j,?_,hj⟩,hcrit⟩
    rintro rfl
    rw [Option.some.inj (hj.symm.trans hi)] at hcrit
    simp [PipeCall.Critical,hph] at hcrit
  · exact h.sane d ((List.eraseIdx_sublist _ _).subset hd)
  · have hsum := sum_leave (f := PipeCall.due w) hi
    have hnone : asked w [.leave i] = 0 := rfl
    have hdue : c.due w = 0 := by simp [PipeCall.due,PipeCall.left,hph,hz]
    have hold := h.due w
    rw [asked_append,hnone]
    change (s.moved w).length+((s.callers.eraseIdx i).map (PipeCall.due w)).sum = _
    omega

theorem Due.call (h : Due tr s) {thread : ThreadId} {writes : Bool} {memory : ℤ → UInt8} {bytes : ℤ}
    (ht : thread ∉ s.callers.map PipeCall.thread) (hlo : 0 ≤ bytes) (hhi : bytes ≤ maxInt) :
    Due (tr++[.call thread writes memory bytes])
      { s with callers := s.callers++[⟨thread,writes,memory,0,bytes,.waiting⟩] } := by
  obtain ⟨unread,hok⟩ := h.ok
  refine ⟨⟨unread,hok.call ht rfl⟩,fun t ht => ?_,fun d hd => ?_,fun w => ?_⟩
  · obtain ⟨d,hd,hcrit⟩ := h.held t ht
    exact ⟨d,List.mem_append_left _ hd,hcrit⟩
  · rcases List.mem_append.mp hd with hd | hd
    · exact h.sane d hd
    · rw [List.mem_singleton] at hd
      subst hd
      refine ⟨le_rfl,hlo,?_,fun hp => by simp at hp⟩
      simp only [PipeCall.left,reduceCtorEq,if_false]
      omega
  · have hold := h.due w
    have hone : asked w [.call thread writes memory bytes] =
        if writes = w then bytes.toNat else 0 := rfl
    have hdue : PipeCall.due w ⟨thread,writes,memory,0,bytes,.waiting⟩ =
        if writes = w then bytes.toNat else 0 := rfl
    rw [asked_append,hone,sum_join,hdue]
    change (s.moved w).length+_ = _
    omega

theorem Due.userMemory (h : Due tr s) (hi : s.callers[i]? = some c) (memory : ℤ → UInt8) :
    Due (tr++[.userMemory i memory])
      { s with callers := s.callers.set i { c with memory := memory } } := by
  obtain ⟨unread,hok⟩ := h.ok
  have hc : c ∈ s.callers := List.mem_of_getElem? hi
  refine ⟨⟨unread,hok.userMemory hi memory⟩,fun t ht => ?_,fun d hd => ?_,fun w => ?_⟩
  · obtain ⟨d,hd,hcrit⟩ := h.held t ht
    obtain ⟨j,hj⟩ := List.mem_iff_getElem?.mp hd
    by_cases hij : j = i
    · subst hij
      rw [Option.some.inj (hj.symm.trans hi)] at hcrit
      exact ⟨_,mem_set_self hi,hcrit⟩
    · exact ⟨d,mem_set_of_ne hj hij,hcrit⟩
  · rcases mem_set_cases hd with rfl | ⟨j,-,hj⟩
    · obtain ⟨hindex,hbytes,hfits,hpending⟩ := h.sane c hc
      exact ⟨hindex,hbytes,hfits,hpending⟩
    · exact h.sane d (List.mem_of_getElem? hj)
  · have hold := h.due w
    have hnone : asked w [.userMemory i memory] = 0 := rfl
    have hsame :=
      Census.map_set_same (f := PipeCall.due w) (b := { c with memory := memory }) hi rfl
    rw [asked_append,hnone]
    change (s.moved w).length+
      ((s.callers.set i { c with memory := memory }).map (PipeCall.due w)).sum = _
    rw [hsame]
    exact hold

theorem Due.next (h : Due tr s) (hl : l.Proper) (ht : s.step l = some t) : Due (tr++[l]) t := by
  cases l with
  | call thread writes memory bytes =>
    obtain ⟨hmem,rfl⟩ := step_call.mp ht
    exact h.call hmem hl.1 hl.2
  | round i =>
    obtain ⟨c,hi,hb,p',c',hr,rfl⟩ := step_round.mp ht
    exact h.round hi hb hr
  | leave i =>
    obtain ⟨c,hi,⟨hph,hz⟩,rfl⟩ := step_leave.mp ht
    exact h.leave hi hph hz
  | userMemory i memory =>
    obtain ⟨c,hi,rfl⟩ := step_userMemory.mp ht
    exact h.userMemory hi memory

theorem Due.run (h : Due tr s) (hp : ∀ l ∈ ls, l.Proper) (hr : Runs.run step s ls = some t) :
    Due (tr++ls) t := by
  induction ls generalizing s tr with
  | nil =>
    cases hr
    rwa [List.append_nil]
  | cons l ls ih =>
    obtain ⟨u,hu,hr⟩ := run_cons.mp hr
    have hall := ih (h.next (hp l List.mem_cons_self) hu)
      (fun k hk => hp k (List.mem_cons_of_mem _ hk)) hr
    rwa [List.append_assoc,List.singleton_append] at hall

/-- A statement or a return is one less to come. -/
theorem Due.step_work (h : Due tr s) (hl : l.Moves) (ht : s.step l = some t) :
    t.work+1 = s.work := by
  cases l with
  | call | userMemory => cases hl
  | round i =>
    obtain ⟨c,hi,hb,p',c',hr,rfl⟩ := step_round.mp ht
    have hturn := (round_turn hr).work (h.sane c (List.mem_of_getElem? hi))
    have hsum := sum_set (f := PipeCall.work) (b := c') hi
    change ((s.callers.set i c').map PipeCall.work).sum+1 = (s.callers.map PipeCall.work).sum
    omega
  | leave i =>
    obtain ⟨c,hi,⟨hph,hz⟩,rfl⟩ := step_leave.mp ht
    have hsum := sum_leave (f := PipeCall.work) hi
    have hone : c.work = 1 := by simp [PipeCall.work,PipeCall.left,hph,hz]
    change ((s.callers.eraseIdx i).map PipeCall.work).sum+1 = (s.callers.map PipeCall.work).sum
    omega

theorem proper_of_moves (h : l.Moves) : l.Proper := by
  cases l with
  | call => cases h
  | round | leave | userMemory => trivial

/-! ### The end of a run -/

/-- Where no call can go on, every one waits for a permit that is not there. -/
theorem Due.blocked (h : Due tr s) (hq : s.Quiescent) (hc : c ∈ s.callers) :
    c.phase = .waiting ∧ (if c.writes then s.pipe.semWrite else s.pipe.semRead) = 0 := by
  have hblocked : ∀ d ∈ s.callers, s.pipe.Blocked d := by
    intro d hd
    obtain ⟨i,hi⟩ := List.mem_iff_getElem?.mp hd
    by_contra hfree
    obtain ⟨x,hx⟩ := Option.isSome_iff_exists.mp (round_isSome (h.sane d hd) hfree)
    by_cases hend : d.phase = .waiting ∧ d.bytes = 0
    · have hleave := hq (.leave i) trivial
      rw [step,hi,Option.bind_some,if_pos hend] at hleave
      cases hleave
    · have hround := hq (.round i) trivial
      rw [step,hi,Option.bind_some,if_neg hend,hx] at hround
      cases hround
  rcases hblocked c hc with hwait | ⟨hph,hm⟩
  · exact hwait
  · obtain ⟨t,ht⟩ := Option.ne_none_iff_exists'.mp hm
    obtain ⟨d,hd,hcrit,-⟩ := h.held t ht
    rcases hblocked d hd with ⟨hwait,-⟩ | ⟨hwait,-⟩ <;> simp [PipeCall.Critical,hwait] at hcrit

theorem Due.amounts (h : Due tr s) (hq : s.Quiescent) :
    s.stored.length = min (asked true tr) (asked false tr+pipeBufferLength) ∧
      s.taken.length = min (asked false tr) (asked true tr) := by
  obtain ⟨unread,hok⟩ := h.ok
  have hnone : ∀ (q : PipeCall → Bool), (∀ c : PipeCall, c.phase = .waiting → q c = false) →
      s.callers.countP q = 0 := by
    intro q hwait
    refine List.countP_eq_zero.mpr fun c hc => ?_
    rw [hwait c (h.blocked hq hc).1]
    exact Bool.false_ne_true
  have hclaims : ∀ w, s.callers.countP (PipeCall.claims w) = 0 :=
    fun w => hnone _ fun c hc => by simp [PipeCall.claims,hc]
  have howes : ∀ w, s.callers.countP (PipeCall.owes w) = 0 :=
    fun w => hnone _ fun c hc => by simp [PipeCall.owes,hc]
  have hstuck : ∀ w, (s.callers.map (PipeCall.due w)).sum ≠ 0 →
      (if w then s.pipe.semWrite else s.pipe.semRead) = 0 := by
    intro w hsum
    obtain ⟨c,hc,hdue⟩ : ∃ c ∈ s.callers, c.due w ≠ 0 := by
      by_contra hall
      refine hsum (sum_eq_zero fun c hc => ?_)
      by_contra hne
      exact hall ⟨c,hc,hne⟩
    have hw : c.writes = w := by
      by_contra hne
      exact hdue (if_neg hne)
    rw [← hw]
    exact (h.blocked hq hc).2
  have hwrite := hok.permits.write
  have hread := hok.permits.read
  have hlength := hok.conserved.length
  have hin := h.due true
  have hout := h.due false
  have hwriters := hstuck true
  have hreaders := hstuck false
  rw [hclaims,howes] at hwrite hread
  simp only [moved,Bool.false_eq_true,if_true,if_false] at hin hout hwriters hreaders
  rw [pipeBufferLength_eq]
  omega

theorem Due.exhausted (h : Due tr s) :
    ∃ ks t, (∀ k ∈ ks, k.Moves) ∧ Runs.run step s ks = some t ∧ t.Quiescent := by
  obtain ⟨n,hn⟩ : ∃ n, s.work = n := ⟨_,rfl⟩
  induction n using Nat.strong_induction_on generalizing s tr with
  | _ n ih =>
    by_cases hq : s.Quiescent
    · exact ⟨[],s,fun k hk => absurd hk List.not_mem_nil,rfl,hq⟩
    · simp only [Quiescent,not_forall] at hq
      obtain ⟨l,hl,hstep⟩ := hq
      obtain ⟨u,hu⟩ := Option.ne_none_iff_exists'.mp hstep
      have hwork := h.step_work hl hu
      obtain ⟨ks,t,hks,hrun,hend⟩ := ih u.work (by omega) (h.next (proper_of_moves hl) hu) rfl
      refine ⟨l::ks,t,fun k hk => ?_,run_cons.mpr ⟨u,hu,hrun⟩,hend⟩
      rcases List.mem_cons.mp hk with rfl | hk
      · exact hl
      · exact hks k hk

theorem Due.run_work (h : Due tr s) (hk : ∀ k ∈ ks, k.Moves) (hr : Runs.run step s ks = some t) :
    ks.length+t.work = s.work := by
  induction ks generalizing s tr with
  | nil =>
    cases hr
    exact Nat.zero_add _
  | cons k ks ih =>
    obtain ⟨u,hu,hr⟩ := run_cons.mp hr
    have hmoves := hk k List.mem_cons_self
    have hone := h.step_work hmoves hu
    have hrest := ih (h.next (proper_of_moves hmoves) hu)
      (fun l hl => hk l (List.mem_cons_of_mem _ hl)) hr
    rw [List.length_cons]
    omega

/-- Once no more calls come, every statement leaves one less to take, so that the threads come to
an end; and how many bytes have gone in and come out there does not depend on the order. -/
theorem transfer {buffer : ℕ → UInt8} (hp : ∀ l ∈ ls, l.Proper)
    (hs : Runs.run step (start buffer) ls = some s) :
    (∃ ks t, (∀ k ∈ ks, k.Moves) ∧ Runs.run step s ks = some t ∧ t.Quiescent) ∧
    ∀ ks t, (∀ k ∈ ks, k.Moves) → Runs.run step s ks = some t →
      ks.length+t.work = s.work ∧ (t.Quiescent →
        t.stored.length = min (asked true ls) (asked false ls+pipeBufferLength) ∧
          t.taken.length = min (asked false ls) (asked true ls)) := by
  have hdue : Due ls s := (start_due buffer).run hp hs
  refine ⟨hdue.exhausted,fun ks t hk ht => ⟨hdue.run_work hk ht,fun hq => ?_⟩⟩
  have hend := (hdue.run (fun k h => proper_of_moves (hk k h)) ht).amounts hq
  rwa [asked_append,asked_append,asked_moves true hk,asked_moves false hk] at hend

/-- Two bytes to write, and three to read. -/
theorem transfer_two :
    ∃ s, Runs.run step (start (fun _ => 0)) [.call ⟨1,0⟩ true (fun _ => 7) 2,
      .call ⟨2,0⟩ false (fun _ => 0) 3] = some s ∧
    ((∃ ks t, (∀ k ∈ ks, k.Moves) ∧ Runs.run step s ks = some t ∧ t.Quiescent) ∧
    ∀ ks t, (∀ k ∈ ks, k.Moves) → Runs.run step s ks = some t →
      ks.length+t.work = s.work ∧ (t.Quiescent →
        t.stored.length = min 2 (3+pipeBufferLength) ∧ t.taken.length = min 3 2)) := by
  have hproper : ∀ l ∈ [PipeStep.call ⟨1,0⟩ true (fun _ => 7) 2,.call ⟨2,0⟩ false (fun _ => 0) 3],
      l.Proper := by
    intro l hl
    rcases List.mem_cons.mp hl with rfl | hl
    · exact ⟨by decide,by decide⟩
    · rw [List.mem_singleton.mp hl]
      exact ⟨by decide,by decide⟩
  exact ⟨_,rfl,transfer hproper rfl⟩

end PipeRun
end ComplexOS
