import ComplexOS.Kernel.ListCalls
import ComplexOS.Ipc.Channel
import ComplexOS.Ipc.ChannelFlow
import ComplexOS.Library.Census
import ComplexOS.Library.Runs
import Mathlib.Tactic.Ring

/-! # The bounds that flow control keeps

Every permit of a direction is in the value of its semaphore, taken by a wait that has
not returned, or on its way to the other semaphore of that direction. The threads that
wait are as many as the value says, up to those that were killed.
-/
namespace ComplexOS

def Half.kind : Half → Transfer → Transfer
  | .lock, op => op
  | .unlock, op => op.other

/-- The wait has taken its permit and has not returned. -/
def FlowPhase.waits : FlowPhase → Option Transfer
  | .leave op .lock | .leaveQueued op | .asleep op => some op
  | _ => none

/-- The first half is over and the permit of the second is not given. -/
def FlowPhase.owes : FlowPhase → Option Transfer
  | .between op | .enter op .unlock | .body op .unlock => some op
  | _ => none

def Transfer.initial : Transfer → ℤ
  | send => (maxMessages : ℤ)-1
  | receive => 0

namespace ChannelNode
variable {channel : ChannelNode} {pid : ℤ} {op : Transfer} {h : Half}

/-- The routing functions keep to the direction of the call. -/
theorem semaphore_eq :
    channel.semaphore pid op h = channel.permits (h.kind op) (channel.direction pid op) := by
  cases op <;> cases h <;>
    simp [semaphore,permits,direction,Half.kind,Transfer.other,lockSend,unlockReceive,lockReceive,
      unlockSend]

def Separate (channel : ChannelNode) : Prop :=
  ∀ op d op' d', channel.permits op d = channel.permits op' d' → op = op' ∧ d = d'

end ChannelNode

namespace ChannelFlow
variable (channel : ChannelNode) (s : ChannelFlow)

def lockOf (op : Transfer) (d : Bool) : ℤ := (s.kernel.semaphores (channel.permits op d)).mutex

def permitValue (op : Transfer) (d : Bool) : ℤ :=
  (s.kernel.semaphores (channel.permits op d)).value

structure StartsOpen (k : Kernel) : Prop where
  separate : channel.Separate
  valid : ∀ op d, k.isValidSemaphore (channel.permits op d)
  value : ∀ op d, (k.semaphores (channel.permits op d)).value = op.initial
  list : ∀ op d, (k.semaphores (channel.permits op d)).list.Holds ∅
  mutexList : ∀ op d, (k.mutexes (k.semaphores (channel.permits op d)).mutex).list.Holds ∅

/-- In each direction the sends are ahead of the receives by less than the queue can hold,
and nothing is received that was not sent. -/
def Bounded : Prop := ∀ d,
  s.pastUnlock .receive d ≤ s.pastLock .send d ∧
    s.pastLock .send d ≤ s.pastUnlock .receive d+(maxMessages-1) ∧
    s.pastLock .receive d ≤ s.pastUnlock .send d

def Independent (a : FlowStep) : Prop := ∀ op s', s.doing a = some op →
  s.step channel a = some s' → ∀ op',
    s'.kernel.semaphores (channel.permits op' (!s.direction channel op)) =
      s.kernel.semaphores (channel.permits op' (!s.direction channel op))

structure Waiters : Prop where
  valid : ∀ op d, s.kernel.isValidSemaphore (channel.permits op d)
  list : ∀ op d, (s.kernel.semaphores (channel.permits op d)).list.Holds
    (s.waiting (channel.permits op d))
  blocked : ∀ op d, s.kernel.Blocked (s.waiting (channel.permits op d))
  phase : ∀ op d, ∀ t ∈ s.waiting (channel.permits op d),
    (s.phase t = .leaveQueued op ∨ s.phase t = .asleep op) ∧ channel.direction t.pid op = d

structure Parkers : Prop where
  list : ∀ op d, (s.kernel.mutexes (s.lockOf channel op d)).list.Holds
    (s.parked (s.lockOf channel op d))
  blocked : ∀ op d, s.kernel.Blocked (s.parked (s.lockOf channel op d))
  phase : ∀ op d, ∀ t ∈ s.parked (s.lockOf channel op d), ∃ op' h, s.phase t = .enter op' h ∧
    s.lockOf channel (h.kind op') (channel.direction t.pid op') = s.lockOf channel op d

def Waits (op : Transfer) (d : Bool) (t : ThreadId) : Prop :=
  (s.phase t).waits = some op ∧ channel.direction t.pid op = d

def Owes (op : Transfer) (d : Bool) (t : ThreadId) : Prop :=
  (s.phase t).owes = some op ∧ channel.direction t.pid op = d

instance (op : Transfer) (d : Bool) (t : ThreadId) : Decidable (s.Waits channel op d t) :=
  inferInstanceAs (Decidable (_ ∧ _))

instance (op : Transfer) (d : Bool) (t : ThreadId) : Decidable (s.Owes channel op d t) :=
  inferInstanceAs (Decidable (_ ∧ _))

structure Balanced (op : Transfer) (d : Bool) : Prop where
  permits : ∃ n, Census.Tally (s.Waits channel op d) n ∧
    s.permitValue channel op d+s.pastLock op d+n+s.killedWaiting op d =
      op.initial+s.pastUnlock op.other d
  owed : ∃ n, Census.Tally (s.Owes channel op d) n ∧
    s.pastLock op d = s.pastUnlock op d+n+s.killedBetween op d
  queue : -s.permitValue channel op d ≤
    (s.waiting (channel.permits op d)).card+s.killedWaiting op d

structure Ok : Prop where
  waiters : s.Waiters channel
  parkers : s.Parkers channel
  balanced : ∀ op d, s.Balanced channel op d

variable {channel s} {s' : ChannelFlow} {k k' : Kernel} {op : Transfer} {d : Bool} {h : Half}
  {p : FlowPhase} {t : ThreadId}

theorem Ok.locked (hs : s.Ok channel) (op : Transfer) (d : Bool) :
    s.pastLock op d ≤ op.initial+s.pastUnlock op.other d := by
  obtain ⟨⟨n,hn,hv⟩,-,hq⟩ := hs.balanced op d
  have hcard := hn.card_le (S := s.waiting (channel.permits op d)) (fun t ht => by
    obtain ⟨hp,hd⟩ := hs.waiters.phase op d t ht
    refine ⟨?_,hd⟩
    rcases hp with hp | hp <;> rw [hp] <;> rfl)
  omega

theorem Ok.given (hs : s.Ok channel) (op : Transfer) (d : Bool) :
    s.pastUnlock op d ≤ s.pastLock op d := by
  obtain ⟨-,⟨n,-,hn⟩,-⟩ := hs.balanced op d
  omega

theorem Ok.bounded (hs : s.Ok channel) : s.Bounded := by
  intro d
  have hsend := hs.locked .send d
  have hreceive := hs.locked .receive d
  have hs' := hs.given .send d
  have hr' := hs.given .receive d
  simp only [Transfer.initial,Transfer.other,maxMessages] at hsend hreceive ⊢
  omega

theorem start_ok (hk : StartsOpen channel k) : (start k).Ok channel := by
  constructor
  · exact ⟨hk.valid,hk.list,fun _ _ => Kernel.Blocked.empty,fun _ _ t ht => (by cases ht)⟩
  · exact ⟨hk.mutexList,fun _ _ => Kernel.Blocked.empty,fun _ _ t ht => (by cases ht)⟩
  · intro op d
    have hv : (start k).permitValue channel op d = op.initial := hk.value op d
    refine ⟨⟨0,Census.Tally.none ?_,?_⟩,⟨0,Census.Tally.none ?_,rfl⟩,?_⟩
    · rintro t ⟨ht,-⟩
      cases ht
    · rw [hv]
      simp [start]
    · rintro t ⟨ht,-⟩
      cases ht
    · rw [hv]
      cases op <;> simp [start,Transfer.initial,maxMessages]

/-! ### Keeping the accounts -/

/-- One for a phase with a part in an account of this kind and direction. -/
def share (o : Option Transfer) (op : Transfer) (d₀ d : Bool) : ℕ :=
  if o = some op ∧ d₀ = d then 1 else 0

@[simp] theorem share_none {d₀ : Bool} : share none op d₀ d = 0 := by simp [share]

theorem share_self : share (some op) op d d = 1 := if_pos ⟨rfl,rfl⟩

theorem share_of_ne {op' : Transfer} {d' : Bool} (hx : ¬ (op = op' ∧ d = d')) :
    share (some op) op' d d' = 0 := if_neg (fun hy => hx ⟨Option.some.inj hy.1,hy.2⟩)

theorem share_other {op' : Transfer} {d' : Bool} :
    share (some op.other) op' d d' = share (some op) op'.other d d' := by
  cases op <;> cases op' <;> simp [share,Transfer.other]

theorem bump_apply {f : Transfer → Bool → ℕ} {op' : Transfer} {d' : Bool} :
    bump f op d op' d' = f op' d'+share (some op) op' d d' := by
  unfold bump share
  by_cases hx : op' = op ∧ d' = d
  · rw [if_pos hx,if_pos ⟨congrArg some hx.1.symm,hx.2.symm⟩]
  · rw [if_neg hx,if_neg (fun hy => hx ⟨(Option.some.inj hy.1).symm,hy.2.symm⟩)]
    rfl

/-- The direction matters for an account of the call's own kind only. -/
theorem share_direction {op' : Transfer} : share (some op) op' (s.direction channel op') d =
    share (some op) op' (s.direction channel op) d := by
  by_cases hx : op = op'
  · rw [hx]
  · have hne : ¬ some op = some op' := fun hy => hx (Option.some.inj hy)
    simp [share,hne]

theorem share_waits (h : s.phase t = p) : (if s.Waits channel op d t then 1 else 0) =
    share p.waits op (channel.direction t.pid op) d := by
  subst h
  exact if_congr Iff.rfl rfl rfl

theorem share_owes (h : s.phase t = p) : (if s.Owes channel op d t then 1 else 0) =
    share p.owes op (channel.direction t.pid op) d := by
  subst h
  exact if_congr Iff.rfl rfl rfl

/-- The accounts after a step that moves the caller from one phase to another. -/
theorem Balanced.moved {p₀ : FlowPhase} (hs : s.Balanced channel op d)
    (hphase : s'.phase = Function.update s.phase s.caller p) (hp₀ : s.phase s.caller = p₀)
    (hv : s'.permitValue channel op d+s'.pastLock op d+s'.killedWaiting op d+s.pastUnlock op.other d+
        share p.waits op (s.direction channel op) d =
      s.permitValue channel op d+s.pastLock op d+s.killedWaiting op d+s'.pastUnlock op.other d+
        share p₀.waits op (s.direction channel op) d)
    (ho : s'.pastLock op d+s.pastUnlock op d+s.killedBetween op d+
        share p₀.owes op (s.direction channel op) d =
      s.pastLock op d+s'.pastUnlock op d+s'.killedBetween op d+
        share p.owes op (s.direction channel op) d)
    (hq : -s'.permitValue channel op d ≤
      (s'.waiting (channel.permits op d)).card+s'.killedWaiting op d) :
    s'.Balanced channel op d := by
  have hoff : ∀ t, t ≠ s.caller → s'.phase t = s.phase t := by
    intro t ht
    rw [hphase,Function.update_of_ne ht]
  have hown : s'.phase s.caller = p := by rw [hphase,Function.update_self]
  obtain ⟨⟨n,hn,hpermits⟩,⟨m,hm,howed⟩,-⟩ := hs
  obtain ⟨n',hn',hcount⟩ := hn.moved (q := s'.Waits channel op d) (a := s.caller)
    (fun t ht => by simp only [Waits,hoff t ht])
  obtain ⟨m',hm',hcount'⟩ := hm.moved (q := s'.Owes channel op d) (a := s.caller)
    (fun t ht => by simp only [Owes,hoff t ht])
  rw [share_waits hown,share_waits hp₀] at hcount
  rw [share_owes hown,share_owes hp₀] at hcount'
  rw [direction] at hv ho
  refine ⟨⟨n',hn',?_⟩,⟨m',hm',?_⟩,hq⟩
  · omega
  · omega

/-- A step that no account is about. -/
theorem Balanced.kept (hs : s.Balanced channel op d)
    (hphase : ∀ t, (s'.phase t).waits = (s.phase t).waits ∧ (s'.phase t).owes = (s.phase t).owes)
    (hv : s'.permitValue channel op d = s.permitValue channel op d)
    (hw : s'.waiting = s.waiting) (hl : s'.pastLock = s.pastLock)
    (hu : s'.pastUnlock = s.pastUnlock) (hkw : s'.killedWaiting = s.killedWaiting)
    (hkb : s'.killedBetween = s.killedBetween) : s'.Balanced channel op d := by
  obtain ⟨⟨n,hn,hpermits⟩,⟨m,hm,howed⟩,hq⟩ := hs
  have hwaits : s'.Waits channel op d = s.Waits channel op d := by
    funext t
    simp only [Waits,(hphase t).1]
  have howes : s'.Owes channel op d = s.Owes channel op d := by
    funext t
    simp only [Owes,(hphase t).2]
  refine ⟨⟨n,hwaits ▸ hn,?_⟩,⟨m,howes ▸ hm,?_⟩,?_⟩
  · rw [hv,hl,hu,hkw]
    exact hpermits
  · rw [hl,hu,hkb]
    exact howed
  · rw [hv,hw,hkw]
    exact hq

/-- The caller goes on to a phase with the same part in the accounts. -/
theorem same_part (hw : p.waits = (s.phase s.caller).waits) (ho : p.owes = (s.phase s.caller).owes)
    (t : ThreadId) : (Function.update s.phase s.caller p t).waits = (s.phase t).waits ∧
      (Function.update s.phase s.caller p t).owes = (s.phase t).owes := by
  by_cases ht : t = s.caller
  · subst ht
    rw [Function.update_self]
    exact ⟨hw,ho⟩
  · rw [Function.update_of_ne ht]
    exact ⟨rfl,rfl⟩

/-! ### Keeping the lists -/

@[simp] theorem goTo_pastLock : (s.goTo p k).pastLock = s.pastLock := rfl
@[simp] theorem goTo_pastUnlock : (s.goTo p k).pastUnlock = s.pastUnlock := rfl

theorem target_eq : s.target channel op h = channel.permits (h.kind op) (s.direction channel op) :=
  ChannelNode.semaphore_eq

theorem targetMutex_eq :
    s.targetMutex channel op h = s.lockOf channel (h.kind op) (s.direction channel op) := by
  unfold targetMutex lockOf
  rw [target_eq]

theorem Waiters.kept (hs : s.Waiters channel) (hsem : s'.kernel.semaphores = s.kernel.semaphores)
    (hw : s'.waiting = s.waiting)
    (hb : ∀ op d, s'.kernel.Blocked (s.waiting (channel.permits op d)))
    (hp : ∀ op d, ∀ t ∈ s.waiting (channel.permits op d),
      s'.phase t = .leaveQueued op ∨ s'.phase t = .asleep op) : s'.Waiters channel := by
  constructor
  · intro op d
    have hv := hs.valid op d
    exact ⟨hv.1,hv.2.1,by rw [hsem]; exact hv.2.2⟩
  · rw [hsem,hw]
    exact hs.list
  · rw [hw]
    exact hb
  · rw [hw]
    exact fun op d t ht => ⟨hp op d t ht,(hs.phase op d t ht).2⟩

theorem Parkers.kept (hs : s.Parkers channel) (hm : ∀ op d, s'.lockOf channel op d = s.lockOf channel op d)
    (hlist : s'.kernel.mutexes = s.kernel.mutexes) (hpk : s'.parked = s.parked)
    (hb : ∀ op d, s'.kernel.Blocked (s.parked (s.lockOf channel op d)))
    (hp : ∀ op d, ∀ t ∈ s.parked (s.lockOf channel op d), s'.phase t = s.phase t) :
    s'.Parkers channel := by
  constructor
  · intro op d
    rw [hm,hlist,hpk]
    exact hs.list op d
  · intro op d
    rw [hm,hpk]
    exact hb op d
  · intro op d t ht
    rw [hm,hpk] at ht
    obtain ⟨op',h,he,hl⟩ := hs.phase op d t ht
    exact ⟨op',h,(hp op d t ht).trans he,by rw [hm,hm]; exact hl⟩

/-- One list of a mutex is another one. -/
theorem Parkers.relist {m : ℤ} {W : Finset ThreadId} (hs : s.Parkers channel)
    (hm : ∀ op d, s'.lockOf channel op d = s.lockOf channel op d)
    (hl : Kernel.Lists m W s.kernel s'.kernel) (hpk : s'.parked = Function.update s.parked m W)
    (hb : s'.kernel.Blocked W)
    (hother : ∀ op d, s.lockOf channel op d ≠ m →
      s'.kernel.Blocked (s.parked (s.lockOf channel op d)))
    (hW : ∀ t ∈ W, ∃ op' h, s'.phase t = .enter op' h ∧
      s.lockOf channel (h.kind op') (channel.direction t.pid op') = m)
    (hp : ∀ op d, s.lockOf channel op d ≠ m → ∀ t ∈ s.parked (s.lockOf channel op d),
      s'.phase t = s.phase t) : s'.Parkers channel := by
  constructor
  · intro op d
    rw [hm,hpk]
    by_cases he : s.lockOf channel op d = m
    · rw [he,Function.update_self]
      exact hl.self
    · rw [Function.update_of_ne he,hl.other _ he]
      exact hs.list op d
  · intro op d
    rw [hm,hpk]
    by_cases he : s.lockOf channel op d = m
    · rw [he,Function.update_self]
      exact hb
    · rw [Function.update_of_ne he]
      exact hother op d he
  · intro op d t ht
    rw [hm,hpk] at ht
    by_cases he : s.lockOf channel op d = m
    · rw [he,Function.update_self] at ht
      obtain ⟨op',h,hx,hy⟩ := hW t ht
      exact ⟨op',h,hx,by rw [hm,hm,he]; exact hy⟩
    · rw [Function.update_of_ne he] at ht
      obtain ⟨op',h,hx,hy⟩ := hs.phase op d t ht
      exact ⟨op',h,(hp op d he t ht).trans hx,by rw [hm,hm]; exact hy⟩

theorem Waiters.notMem (hs : s.Waiters channel)
    (hp : ∀ op, s.phase t ≠ .leaveQueued op ∧ s.phase t ≠ .asleep op) (op : Transfer) (d : Bool) :
    t ∉ s.waiting (channel.permits op d) := by
  intro ht
  obtain ⟨hx | hx,-⟩ := hs.phase op d t ht
  · exact (hp op).1 hx
  · exact (hp op).2 hx

theorem Parkers.notMem (hs : s.Parkers channel) (hp : ∀ op h, s.phase t ≠ .enter op h)
    (op : Transfer) (d : Bool) : t ∉ s.parked (s.lockOf channel op d) := by
  intro ht
  obtain ⟨op',h,hx,-⟩ := hs.phase op d t ht
  exact hp op' h hx

/-- The threads of a list that the caller is not on stay where they are. -/
theorem phase_of_mem {W : Finset ThreadId} (hc : s.caller ∉ W) (ht : t ∈ W) :
    Function.update s.phase s.caller p t = s.phase t := by
  have hne : t ≠ s.caller := fun hx => hc (hx ▸ ht)
  rw [Function.update_of_ne hne]

/-! ### The steps -/

def before (op : Transfer) : Half → FlowPhase
  | .lock => .outside
  | .unlock => .between op

theorem lockOf_eq (hsem : s'.kernel.semaphores = s.kernel.semaphores) (op : Transfer) (d : Bool) :
    s'.lockOf channel op d = s.lockOf channel op d := by
  unfold lockOf
  rw [hsem]

theorem permitValue_eq (hsem : s'.kernel.semaphores = s.kernel.semaphores) (op : Transfer)
    (d : Bool) : s'.permitValue channel op d = s.permitValue channel op d := by
  unfold permitValue
  rw [hsem]

theorem enter_ok (hs : s.Ok channel) (hreal : Processes.Real s.kernel.processes s.caller)
    (hp : s.phase s.caller = before op h) (he : s.enter channel op h = some s') : s'.Ok channel := by
  have hne : ∀ op' h', s.phase s.caller ≠ .enter op' h' := by
    intro op' h'
    rw [hp]
    cases h <;> simp [before]
  have hnq : ∀ op', s.phase s.caller ≠ .leaveQueued op' ∧ s.phase s.caller ≠ .asleep op' := by
    intro op'
    rw [hp]
    cases h <;> simp [before]
  have hnw := hs.waiters.notMem hnq
  have hnp := hs.parkers.notMem hne
  unfold enter at he
  rw [target_eq,if_pos (hs.waiters.valid _ _)] at he
  obtain ⟨⟨o,k⟩,hk,rfl⟩ := Option.map_eq_some_iff.mp he
  rw [targetMutex_eq] at hk ⊢
  obtain ⟨hsem,hlists,hund,hsame,hset⟩ := Kernel.mutexDown_spec (hs.parkers.list _ _) (hnp _ _) hreal hk
  have hcw : ∀ op d, k.Blocked (s.waiting (channel.permits op d)) :=
    fun op d => (hs.waiters.blocked op d).undisturbed_one hund (hnw op d)
  have hcp : ∀ op d, k.Blocked (s.parked (s.lockOf channel op d)) :=
    fun op d => (hs.parkers.blocked op d).undisturbed_one hund (hnp op d)
  have hphasew : ∀ (p : FlowPhase) op' d, ∀ t ∈ s.waiting (channel.permits op' d),
      Function.update s.phase s.caller p t = .leaveQueued op' ∨
        Function.update s.phase s.caller p t = .asleep op' := by
    intro p op' d t ht
    rw [phase_of_mem (hnw op' d) ht]
    exact (hs.waiters.phase op' d t ht).1
  have hphasep : ∀ (p : FlowPhase) op' d, ∀ t ∈ s.parked (s.lockOf channel op' d),
      Function.update s.phase s.caller p t = s.phase t :=
    fun p op' d t ht => phase_of_mem (hnp op' d) ht
  -- nobody comes off a list, and the caller is on the list of the mutex or on none
  have hstay : ∀ p, Kernel.Lists (s.lockOf channel (h.kind op) (s.direction channel op))
      (s.parked (s.lockOf channel (h.kind op) (s.direction channel op))) s.kernel k →
      ∀ s' : ChannelFlow, s'.kernel = k → s'.parked = s.parked →
        s'.phase = Function.update s.phase s.caller p → s'.Parkers channel := by
    intro p hl s' hkernel hparked hphase
    subst hkernel
    refine hs.parkers.relist (lockOf_eq hsem) hl ?_ (hcp _ _) (fun _ _ _ => hcp _ _) ?_ ?_
    · rw [hparked,Function.update_eq_self]
    · intro t ht
      obtain ⟨op',h',hx,hy⟩ := hs.parkers.phase _ _ t ht
      exact ⟨op',h',by rw [hphase,hphasep p _ _ t ht]; exact hx,hy⟩
    · intro op' d _ t ht
      rw [hphase,hphasep p _ _ t ht]
  cases o with simp only
  | returned =>
    refine ⟨hs.waiters.kept hsem rfl hcw (hphasew _),hstay _ hlists _ rfl rfl rfl,fun op' d => ?_⟩
    refine (hs.balanced op' d).kept (same_part ?_ ?_) (permitValue_eq hsem _ _) rfl rfl rfl rfl rfl
    all_goals
      rw [hp]
      cases h <;> rfl
  | queued =>
    refine ⟨hs.waiters.kept hsem rfl hcw (hphasew _),?_,fun op' d => ?_⟩
    · refine hs.parkers.relist (lockOf_eq hsem) hlists rfl ((hs.parkers.blocked _ _).insert hreal (hset rfl))
        (fun _ _ _ => hcp _ _) (fun t ht => ?_) (fun op' d _ => hphasep _ op' d)
      by_cases hx : t = s.caller
      · subst hx
        exact ⟨op,h,Function.update_self _ _ _,rfl⟩
      · have hmem := Finset.mem_of_mem_insert_of_ne ht hx
        obtain ⟨op',h',hx,hy⟩ := hs.parkers.phase _ _ t hmem
        exact ⟨op',h',(hphasep _ _ _ t hmem).trans hx,hy⟩
    · refine (hs.balanced op' d).kept (same_part ?_ ?_) (permitValue_eq hsem _ _) rfl rfl rfl rfl rfl
      all_goals
        rw [hp]
        cases h <;> rfl
  | full =>
    refine ⟨hs.waiters.kept hsem rfl hcw (hphasew _),hstay _ hlists _ rfl rfl rfl,fun op' d => ?_⟩
    have hv : ∀ s' : ChannelFlow, s'.kernel = k →
        s'.permitValue channel op' d = s.permitValue channel op' d :=
      fun s' hx => permitValue_eq (hx ▸ hsem) op' d
    refine (hs.balanced op' d).moved rfl hp ?_ ?_ ?_
    · rw [hv _ rfl]
      cases h <;> rfl
    · cases h with
      | lock => rfl
      | unlock =>
        simp only [if_pos,bump_apply,goTo_pastLock,goTo_pastUnlock,before,FlowPhase.owes,share_none,
          share_direction]
        omega
    · rw [hv _ rfl]
      exact (hs.balanced op' d).queue

/-- The wait of a call returns. -/
theorem passLock_balanced {op' : Transfer} (hs : s.Balanced channel op' d)
    (hw : (s.phase s.caller).waits = some op) (ho : (s.phase s.caller).owes = none)
    (hsem : k.semaphores = s.kernel.semaphores) :
    (s.passLock channel op k).Balanced channel op' d := by
  have hv : (s.passLock channel op k).permitValue channel op' d = s.permitValue channel op' d :=
    permitValue_eq hsem op' d
  refine hs.moved rfl rfl ?_ ?_ ?_
  · rw [hv,hw]
    simp only [passLock,bump_apply,goTo,FlowPhase.waits,share_none,share_direction]
    omega
  · rw [ho]
    simp only [passLock,bump_apply,goTo,FlowPhase.owes,share_none,share_direction]
    omega
  · rw [hv]
    exact hs.queue

/-- The last `mutexUp` of a half. Those whom it wakes were on the list of the mutex. -/
theorem leaveStep_ok {after : Kernel → ChannelFlow} (hs : s.Ok channel)
    (he : s.leaveStep channel op h after = some s')
    (hne : ∀ op' h', s.phase s.caller ≠ .enter op' h')
    (hq : ∀ op', s.phase s.caller = .leaveQueued op' ∨ s.phase s.caller = .asleep op' → p = .asleep op')
    (hphase : ∀ k, (after k).phase = Function.update s.phase s.caller p)
    (hkernel : ∀ k, (after k).kernel = k) (hwaiting : ∀ k, (after k).waiting = s.waiting)
    (hbal : ∀ k, k.semaphores = s.kernel.semaphores → ∀ op d, (after k).Balanced channel op d) :
    s'.Ok channel := by
  obtain ⟨k,hk,rfl⟩ := Option.map_eq_some_iff.mp he
  rw [targetMutex_eq] at hk ⊢
  obtain ⟨hsem,hlists,hund⟩ :=
    Kernel.mutexUp_spec (hs.parkers.list _ _) (hs.parkers.blocked _ _) hk
  have hnp := hs.parkers.notMem hne
  have hsub : ∀ t, t ∈ woken s.kernel k (s.parked (s.lockOf channel (h.kind op) (s.direction channel op))) →
      t ∈ s.parked (s.lockOf channel (h.kind op) (s.direction channel op)) :=
    fun t ht => (Finset.mem_filter.mp ht).1
  have hoff : ∀ t, t ≠ s.caller → (after k).phase t = s.phase t := by
    intro t ht
    rw [hphase,Function.update_of_ne ht]
  have hparked : ∀ op' d, ∀ t ∈ s.parked (s.lockOf channel op' d), (after k).phase t = s.phase t :=
    fun op' d t ht => hoff t (fun hx => hnp op' d (hx ▸ ht))
  refine ⟨?_,?_,fun op' d => ?_⟩
  · refine hs.waiters.kept (by rw [hkernel]; exact hsem) (hwaiting k) (fun op' d => ?_) (fun op' d t ht => ?_)
    · rw [hkernel]
      refine (hs.waiters.blocked op' d).undisturbed hund (fun w hw hx => ?_)
      obtain ⟨op₁,h₁,hx,-⟩ := hs.parkers.phase _ _ w (hsub w hx)
      obtain ⟨hy | hy,-⟩ := hs.waiters.phase op' d w hw
      · rw [hx] at hy
        cases hy
      · rw [hx] at hy
        cases hy
    · have hx := (hs.waiters.phase op' d t ht).1
      show (after k).phase t = _ ∨ (after k).phase t = _
      by_cases hc : t = s.caller
      · subst hc
        rw [hphase,Function.update_self,hq op' hx]
        exact Or.inr rfl
      · rw [hoff t hc]
        exact hx
  · refine hs.parkers.relist (lockOf_eq (by rw [hkernel]; exact hsem)) (by rw [hkernel]; exact hlists) rfl
      ?_ ?_ ?_ (fun op' d _ => hparked op' d)
    · rw [hkernel]
      refine Kernel.Blocked.undisturbed (fun w hw => ?_) hund (fun w hw => ?_)
      · exact hs.parkers.blocked _ _ w (Finset.mem_sdiff.mp hw).1
      · exact (Finset.mem_sdiff.mp hw).2
    · intro op' d hx
      rw [hkernel]
      refine (hs.parkers.blocked op' d).undisturbed hund (fun w hw hy => hx ?_)
      -- a thread on two lists would be in two calls
      obtain ⟨op₁,h₁,he₁,hl₁⟩ := hs.parkers.phase _ _ w (hsub w hy)
      obtain ⟨op₂,h₂,he₂,hl₂⟩ := hs.parkers.phase op' d w hw
      rw [he₁] at he₂
      cases he₂
      exact hl₂.symm.trans hl₁
    · intro t ht
      have hmem := (Finset.mem_sdiff.mp ht).1
      obtain ⟨op',h',hx,hy⟩ := hs.parkers.phase _ _ t hmem
      exact ⟨op',h',(hparked _ _ t hmem).trans hx,hy⟩
  · obtain ⟨hp,ho,hqueue⟩ := hbal k hsem op' d
    exact ⟨hp,ho,hqueue⟩

theorem mutexUp_ok (hs : s.Ok channel) (he : s.step channel .mutexUp = some s') : s'.Ok channel := by
  unfold step at he
  simp only at he
  split at he
  · have hkept : ∀ p k, p.waits = (s.phase s.caller).waits → p.owes = (s.phase s.caller).owes →
        k.semaphores = s.kernel.semaphores → ∀ op d, (s.goTo p k).Balanced channel op d := by
      intro p k hw ho hsem op d
      exact (hs.balanced op d).kept (same_part hw ho) (permitValue_eq hsem op d) rfl rfl rfl rfl rfl
    split at he
    · rename_i op hp
      refine leaveStep_ok (p := .between op) hs he ?_ ?_ (fun _ => rfl) (fun _ => rfl) (fun _ => rfl) ?_
      · simp [hp]
      · simp [hp]
      · exact fun k hsem op' d => passLock_balanced (hs.balanced op' d) (by rw [hp]; rfl)
          (by rw [hp]; rfl) hsem
    · rename_i op hp
      refine leaveStep_ok (p := .outside) hs he ?_ ?_ (fun _ => rfl) (fun _ => rfl) (fun _ => rfl) ?_
      · simp [hp]
      · simp [hp]
      · exact fun k => hkept _ k (by rw [hp]; rfl) (by rw [hp]; rfl)
    · rename_i op hp
      refine leaveStep_ok (p := .asleep op) hs he ?_ ?_ (fun _ => rfl) (fun _ => rfl) (fun _ => rfl) ?_
      · simp [hp]
      · intro op' hx
        rw [hp] at hx
        rcases hx with hx | hx
        · cases hx
          rfl
        · cases hx
      · exact fun k => hkept _ k (by rw [hp]; rfl) (by rw [hp]; rfl)
    · rename_i op hp
      refine leaveStep_ok (p := .killed) hs he ?_ ?_ (fun _ => rfl) (fun _ => rfl) (fun _ => rfl) ?_
      · simp [hp]
      · simp [hp]
      · exact fun k => hkept _ k (by rw [hp]; rfl) (by rw [hp]; rfl)
    · cases he
  · cases he

theorem resume_ok (hs : s.Ok channel) (he : s.step channel .resume = some s') : s'.Ok channel := by
  unfold step at he
  simp only at he
  split at he
  · rename_i hrun
    have hnb : ∀ W, s.kernel.Blocked W → s.caller ∉ W := by
      intro W hb hw
      have hx := (hb _ hw).2
      rw [hrun] at hx
      cases hx
    have hwaiters : ∀ (p : FlowPhase) (s' : ChannelFlow), s'.kernel = s.kernel →
        s'.waiting = s.waiting → s'.phase = Function.update s.phase s.caller p →
        s'.Waiters channel := by
      intro p s' hk hw hphase
      refine hs.waiters.kept (by rw [hk]) hw (by rw [hk]; exact hs.waiters.blocked) ?_
      intro op d t ht
      rw [hphase,phase_of_mem (hnb _ (hs.waiters.blocked op d)) ht]
      exact (hs.waiters.phase op d t ht).1
    have hparkers : ∀ (p : FlowPhase) (s' : ChannelFlow), s'.kernel = s.kernel →
        s'.parked = s.parked → s'.phase = Function.update s.phase s.caller p →
        s'.Parkers channel := by
      intro p s' hk hpk hphase
      refine hs.parkers.kept (lockOf_eq (by rw [hk])) (by rw [hk]) hpk
        (by rw [hk]; exact hs.parkers.blocked) ?_
      intro op d t ht
      rw [hphase,phase_of_mem (hnb _ (hs.parkers.blocked op d)) ht]
    split at he
    · rename_i op h hp
      cases he
      refine ⟨hwaiters _ _ rfl rfl rfl,hparkers _ _ rfl rfl rfl,fun op' d => ?_⟩
      refine (hs.balanced op' d).kept (same_part ?_ ?_) rfl rfl rfl rfl rfl rfl
      all_goals
        rw [hp]
        cases h <;> rfl
    · rename_i op hp
      cases he
      refine ⟨hwaiters _ _ rfl rfl rfl,hparkers _ _ rfl rfl rfl,fun op' d => ?_⟩
      exact passLock_balanced (hs.balanced op' d) (by rw [hp]; rfl) (by rw [hp]; rfl) rfl
    · cases he
  · cases he

theorem dispatch_ok (hs : s.Ok channel) (he : s.step channel (.dispatch t) = some s') :
    s'.Ok channel := by
  unfold step at he
  simp only at he
  split at he
  · rename_i hg
    cases he
    have hsome : (s.kernel.threadState t).isSome := by
      rw [hg.1]
      rfl
    have hb : ∀ W, s.kernel.Blocked W → (s.kernel.dispatch t).Blocked W := fun W hb w hw =>
      ⟨(Kernel.real_dispatch hsome).mpr (hb w hw).1,Kernel.dispatch_blocked hg.1 (hb w hw).2⟩
    refine ⟨?_,?_,fun op d => ?_⟩
    · exact hs.waiters.kept rfl rfl (fun op d => hb _ (hs.waiters.blocked op d))
        (fun op d t ht => (hs.waiters.phase op d t ht).1)
    · exact hs.parkers.kept (fun _ _ => rfl) rfl rfl (fun op d => hb _ (hs.parkers.blocked op d))
        (fun _ _ _ _ => rfl)
    · exact (hs.balanced op d).kept (fun _ => ⟨rfl,rfl⟩) rfl rfl rfl rfl rfl rfl
  · cases he

/-! ### The bodies -/

/-- A semaphore of the channel has another value and another list. -/
theorem Waiters.relist {v : ℤ} {W : Finset ThreadId} (hs : s.Waiters channel)
    (hsep : channel.Separate)
    (hc : Kernel.Counted (channel.permits op d) v W s.kernel s'.kernel)
    (hw : s'.waiting = Function.update s.waiting (channel.permits op d) W)
    (hb : s'.kernel.Blocked W)
    (hother : ∀ op' d', channel.permits op' d' ≠ channel.permits op d →
      s'.kernel.Blocked (s.waiting (channel.permits op' d')))
    (hW : ∀ t ∈ W, (s'.phase t = .leaveQueued op ∨ s'.phase t = .asleep op) ∧
      channel.direction t.pid op = d)
    (hp : ∀ op' d', channel.permits op' d' ≠ channel.permits op d →
      ∀ t ∈ s.waiting (channel.permits op' d'), s'.phase t = s.phase t) : s'.Waiters channel := by
  constructor
  · intro op' d'
    have hv := hs.valid op' d'
    refine ⟨hv.1,hv.2.1,?_⟩
    by_cases he : channel.permits op' d' = channel.permits op d
    · rw [he,hc.creator,← he]
      exact hv.2.2
    · rw [hc.other _ he]
      exact hv.2.2
  · intro op' d'
    rw [hw]
    by_cases he : channel.permits op' d' = channel.permits op d
    · rw [he,Function.update_self]
      exact hc.list
    · rw [Function.update_of_ne he,hc.other _ he]
      exact hs.list op' d'
  · intro op' d'
    rw [hw]
    by_cases he : channel.permits op' d' = channel.permits op d
    · rw [he,Function.update_self]
      exact hb
    · rw [Function.update_of_ne he]
      exact hother op' d' he
  · intro op' d' t ht
    rw [hw] at ht
    by_cases he : channel.permits op' d' = channel.permits op d
    · obtain ⟨rfl,rfl⟩ := hsep _ _ _ _ he
      rw [Function.update_self] at ht
      exact hW t ht
    · rw [Function.update_of_ne he] at ht
      rw [hp op' d' he t ht]
      exact hs.phase op' d' t ht

theorem lockOf_counted {v : ℤ} {W : Finset ThreadId} {semaphore : ℤ}
    (hc : Kernel.Counted semaphore v W s.kernel s'.kernel) (op : Transfer) (d : Bool) :
    s'.lockOf channel op d = s.lockOf channel op d := by
  unfold lockOf
  by_cases he : channel.permits op d = semaphore
  · rw [he,hc.mutex]
  · rw [hc.other _ he]

/-- The value of the semaphores changes for one kind and one direction. -/
theorem permitValue_counted {v : ℤ} {W : Finset ThreadId} (hsep : channel.Separate)
    (hc : Kernel.Counted (channel.permits op d) v W s.kernel s'.kernel) (op' : Transfer) (d' : Bool) :
    s'.permitValue channel op' d' = s.permitValue channel op' d'+
      (v-s.permitValue channel op d)*share (some op) op' d d' := by
  unfold permitValue share
  by_cases hx : some op = some op' ∧ d = d'
  · obtain ⟨ho,rfl⟩ := hx
    cases ho
    rw [hc.value,if_pos ⟨rfl,rfl⟩]
    push_cast
    ring
  · rw [if_neg hx,hc.other]
    · push_cast
      ring
    · intro he
      obtain ⟨rfl,rfl⟩ := hsep _ _ _ _ he
      exact hx ⟨rfl,rfl⟩

theorem waitStep_ok (hs : s.Ok channel) (hsep : channel.Separate)
    (hreal : Processes.Real s.kernel.processes s.caller) (hp : s.phase s.caller = .body op .lock)
    (he : s.waitStep channel op = some s') : s'.Ok channel := by
  have hnw := hs.waiters.notMem (t := s.caller) (by simp [hp])
  have hnp := hs.parkers.notMem (t := s.caller) (by simp [hp])
  obtain ⟨⟨o,k⟩,hk,rfl⟩ := Option.map_eq_some_iff.mp he
  have htarget : s.target channel op .lock = channel.permits op (s.direction channel op) := target_eq
  rw [htarget] at hk ⊢
  obtain ⟨hc,hund,hpos,hsame,hset⟩ := Kernel.waitBody_spec (hs.waiters.list _ _) (hnw _ _) hreal hk
  have hcw : ∀ op d, k.Blocked (s.waiting (channel.permits op d)) :=
    fun op d => (hs.waiters.blocked op d).undisturbed_one hund (hnw op d)
  have hcp : ∀ op d, k.Blocked (s.parked (s.lockOf channel op d)) :=
    fun op d => (hs.parkers.blocked op d).undisturbed_one hund (hnp op d)
  have hphasew : ∀ (p : FlowPhase) op' d, ∀ t ∈ s.waiting (channel.permits op' d),
      Function.update s.phase s.caller p t = s.phase t :=
    fun p op' d t ht => phase_of_mem (hnw op' d) ht
  have hparkers : ∀ (p : FlowPhase) (s' : ChannelFlow), s'.kernel = k → s'.parked = s.parked →
      s'.phase = Function.update s.phase s.caller p → s'.Parkers channel := by
    intro p s' hkernel hparked hphase
    subst hkernel
    refine hs.parkers.kept (lockOf_counted hc) hc.mutexes hparked hcp (fun op' d t ht => ?_)
    rw [hphase,phase_of_mem (hnp op' d) ht]
  have hstay : ∀ p, Kernel.Counted (channel.permits op (s.direction channel op))
      ((s.kernel.semaphores (channel.permits op (s.direction channel op))).value-1)
      (s.waiting (channel.permits op (s.direction channel op))) s.kernel k →
      ∀ s' : ChannelFlow, s'.kernel = k → s'.waiting = s.waiting →
        s'.phase = Function.update s.phase s.caller p → s'.Waiters channel := by
    intro p hc s' hkernel hwaiting hphase
    subst hkernel
    refine hs.waiters.relist hsep hc ?_ (hcw _ _) (fun _ _ _ => hcw _ _) (fun t ht => ?_)
      (fun op' d _ t ht => ?_)
    · rw [hwaiting,Function.update_eq_self]
    · rw [hphase,hphasew p _ _ t ht]
      exact hs.waiters.phase _ _ t ht
    · rw [hphase,hphasew p _ _ t ht]
  have hv : ∀ s' : ChannelFlow, s'.kernel = k → ∀ op' d, s'.permitValue channel op' d =
      s.permitValue channel op' d-share (some op) op' (s.direction channel op) d := by
    intro s' hkernel op' d
    subst hkernel
    rw [permitValue_counted hsep hc]
    unfold permitValue
    ring
  cases o with simp only
  | returned =>
    refine ⟨hstay _ hc _ rfl rfl rfl,hparkers _ _ rfl rfl rfl,fun op' d => ?_⟩
    refine (hs.balanced op' d).moved rfl hp ?_ ?_ ?_
    · rw [hv _ rfl]
      simp only [goTo,FlowPhase.waits,share_none,share_direction]
      omega
    · rfl
    · rw [hv _ rfl]
      by_cases hx : op = op' ∧ s.direction channel op = d
      · obtain ⟨rfl,rfl⟩ := hx
        have hpos' : 0 < s.permitValue channel op (s.direction channel op) := hpos rfl
        rw [share_self]
        omega
      · rw [share_of_ne hx,Nat.cast_zero,sub_zero]
        exact (hs.balanced op' d).queue
  | queued =>
    refine ⟨?_,hparkers _ _ rfl rfl rfl,fun op' d => ?_⟩
    · refine hs.waiters.relist hsep hc rfl ((hs.waiters.blocked _ _).insert hreal (hset rfl))
        (fun _ _ _ => hcw _ _) (fun t ht => ?_) (fun op' d _ => hphasew _ op' d)
      by_cases hx : t = s.caller
      · subst hx
        exact ⟨Or.inl (Function.update_self _ _ _),rfl⟩
      · have hmem := Finset.mem_of_mem_insert_of_ne ht hx
        have hphase := hphasew (.leaveQueued op) _ _ t hmem
        have hold := hs.waiters.phase _ _ t hmem
        rw [← hphase] at hold
        exact hold
    · refine (hs.balanced op' d).moved rfl hp ?_ ?_ ?_
      · rw [hv _ rfl]
        simp only [goTo,FlowPhase.waits,share_none,share_direction]
        omega
      · rfl
      · rw [hv _ rfl]
        have hqueue := (hs.balanced op' d).queue
        simp only [goTo]
        by_cases hx : op = op' ∧ s.direction channel op = d
        · obtain ⟨rfl,rfl⟩ := hx
          rw [share_self,Function.update_self,Finset.card_insert_of_notMem (hnw _ _)]
          omega
        · have hne : channel.permits op' d ≠ channel.permits op (s.direction channel op) := by
            intro hy
            obtain ⟨rfl,rfl⟩ := hsep _ _ _ _ hy
            exact hx ⟨rfl,rfl⟩
          rw [share_of_ne hx,Nat.cast_zero,sub_zero,Function.update_of_ne hne]
          exact hqueue
  | full =>
    refine ⟨hstay _ hc _ rfl rfl rfl,hparkers _ _ rfl rfl rfl,fun op' d => ?_⟩
    refine (hs.balanced op' d).moved rfl hp ?_ ?_ ?_
    · rw [hv _ rfl]
      simp only [goTo,bump_apply,FlowPhase.waits,share_none]
      omega
    · rfl
    · rw [hv _ rfl]
      have hqueue := (hs.balanced op' d).queue
      simp only [goTo,bump_apply]
      omega

theorem signalStep_ok (hs : s.Ok channel) (hsep : channel.Separate)
    (hp : s.phase s.caller = .body op .unlock) (he : s.signalStep channel op = some s') :
    s'.Ok channel := by
  have hnw := hs.waiters.notMem (t := s.caller) (by simp [hp])
  have hnp := hs.parkers.notMem (t := s.caller) (by simp [hp])
  obtain ⟨k,hk,rfl⟩ := Option.map_eq_some_iff.mp he
  have htarget : s.target channel op .unlock = channel.permits op.other (s.direction channel op) :=
    target_eq
  rw [htarget] at hk ⊢
  obtain ⟨hc,hund,hcard⟩ :=
    Kernel.signalBody_spec (hs.waiters.list _ _) (hs.waiters.blocked _ _) hk
  have hsub : woken s.kernel k (s.waiting (channel.permits op.other (s.direction channel op))) ⊆
      s.waiting (channel.permits op.other (s.direction channel op)) := Finset.filter_subset _ _
  have hphasew : ∀ (p : FlowPhase) op' d, ∀ t ∈ s.waiting (channel.permits op' d),
      Function.update s.phase s.caller p t = s.phase t :=
    fun p op' d t ht => phase_of_mem (hnw op' d) ht
  refine ⟨?_,?_,fun op' d => ?_⟩
  · refine hs.waiters.relist hsep hc rfl ?_ (fun op' d hne => ?_) (fun t ht => ?_)
      (fun op' d _ => hphasew _ op' d)
    · refine Kernel.Blocked.undisturbed (fun w hw => ?_) hund (fun w hw => ?_)
      · exact hs.waiters.blocked _ _ w (Finset.mem_sdiff.mp hw).1
      · exact (Finset.mem_sdiff.mp hw).2
    · refine (hs.waiters.blocked op' d).undisturbed hund (fun w hw hx => hne ?_)
      -- a thread on two lists would be in two calls
      obtain ⟨hy,hd⟩ := hs.waiters.phase op' d w hw
      obtain ⟨hy',hd'⟩ := hs.waiters.phase _ _ w (hsub hx)
      obtain rfl : op' = op.other := by
        rcases hy with hy | hy <;> rcases hy' with hy' | hy' <;> rw [hy] at hy' <;> cases hy' <;> rfl
      rw [← hd,hd']
    · have hmem := (Finset.mem_sdiff.mp ht).1
      have hphase := hphasew (.leave op .unlock) _ _ t hmem
      have hold := hs.waiters.phase _ _ t hmem
      rw [← hphase] at hold
      exact hold
  · refine hs.parkers.kept (lockOf_counted hc) hc.mutexes rfl (fun op' d => ?_) (fun op' d t ht => ?_)
    · refine (hs.parkers.blocked op' d).undisturbed hund (fun w hw hx => ?_)
      obtain ⟨op₁,h₁,he₁,-⟩ := hs.parkers.phase op' d w hw
      obtain ⟨hy | hy,-⟩ := hs.waiters.phase _ _ w (hsub hx)
      · rw [he₁] at hy
        cases hy
      · rw [he₁] at hy
        cases hy
    · exact phase_of_mem (hnp op' d) ht
  · have hval : (s.passUnlock channel op (.leave op .unlock) k).permitValue channel op' d =
        s.permitValue channel op' d+share (some op.other) op' (s.direction channel op) d := by
      rw [permitValue_counted hsep hc]
      unfold permitValue
      ring
    refine (hs.balanced op' d).moved rfl hp ?_ ?_ ?_
    · show (s.passUnlock channel op (.leave op .unlock) k).permitValue channel op' d+_+_+_+_ = _
      rw [hval,share_other]
      simp only [passUnlock,goTo,bump_apply,FlowPhase.waits,share_none]
      omega
    · simp only [passUnlock,goTo,bump_apply,FlowPhase.owes,share_none,share_direction]
      omega
    · show -(s.passUnlock channel op (.leave op .unlock) k).permitValue channel op' d ≤ _
      have hqueue := (hs.balanced op' d).queue
      rw [hval]
      simp only [passUnlock,goTo]
      by_cases hx : op.other = op' ∧ s.direction channel op = d
      · obtain ⟨rfl,rfl⟩ := hx
        rw [share_self,Function.update_self]
        have := Finset.card_sdiff_add_card_eq_card hsub
        omega
      · have hne : channel.permits op' d ≠ channel.permits op.other (s.direction channel op) := by
          intro hy
          obtain ⟨rfl,rfl⟩ := hsep _ _ _ _ hy
          exact hx ⟨rfl,rfl⟩
        rw [share_of_ne hx,Nat.cast_zero,add_zero,Function.update_of_ne hne]
        exact hqueue

theorem step_ok {a : FlowStep} (hs : s.Ok channel) (hsep : channel.Separate)
    (he : s.step channel a = some s') : s'.Ok channel := by
  cases a with
  | call op =>
    unfold step at he
    simp only at he
    split at he
    · rename_i hg
      exact enter_ok (h := .lock) hs hg.1 hg.2.1 he
    · cases he
  | proceed =>
    unfold step at he
    simp only at he
    split at he
    · rename_i hreal
      split at he
      · rename_i op hp
        exact enter_ok (h := .unlock) hs hreal hp he
      · cases he
    · cases he
  | resume => exact resume_ok hs he
  | body =>
    unfold step at he
    simp only at he
    split at he
    · rename_i hreal
      split at he
      · rename_i op hp
        exact waitStep_ok hs hsep hreal hp he
      · rename_i op hp
        exact signalStep_ok hs hsep hp he
      · cases he
    · cases he
  | mutexUp => exact mutexUp_ok hs he
  | dispatch t => exact dispatch_ok hs he

/-! ### The other direction -/

theorem enter_semaphores (he : s.enter channel op h = some s') :
    s'.kernel.semaphores = s.kernel.semaphores := by
  unfold enter at he
  split at he
  · obtain ⟨⟨o,k⟩,hk,rfl⟩ := Option.map_eq_some_iff.mp he
    have hsem : k.semaphores = s.kernel.semaphores := by
      obtain ⟨-,-,rfl⟩ | ⟨-,hrest,-⟩ := Kernel.mutexDown_cases hk
      · rfl
      · exact hrest.semaphores
    cases o <;> exact hsem
  · cases h <;> cases he <;> rfl

theorem leaveStep_semaphores {after : Kernel → ChannelFlow} (hkernel : ∀ k, (after k).kernel = k)
    (he : s.leaveStep channel op h after = some s') : s'.kernel.semaphores = s.kernel.semaphores := by
  obtain ⟨k,hk,rfl⟩ := Option.map_eq_some_iff.mp he
  have hsem : k.semaphores = s.kernel.semaphores := by
    obtain ⟨-,rfl⟩ | ⟨-,-,hrest,-⟩ := Kernel.mutexUp_cases hk
    · rfl
    · exact hrest.semaphores
  rw [← hsem]
  exact congrArg Kernel.semaphores (hkernel k)

/-- Only the bodies touch a semaphore, and each touches the one that it is routed to. -/
theorem body_semaphores (hs : s.Ok channel) (hp : s.phase s.caller = .body op h)
    (he : s.step channel .body = some s') {i : ℤ}
    (hi : i ≠ channel.permits (h.kind op) (s.direction channel op)) :
    s'.kernel.semaphores i = s.kernel.semaphores i := by
  have hnw := hs.waiters.notMem (t := s.caller) (by simp [hp])
  unfold step at he
  simp only [hp] at he
  split at he
  · rename_i hreal
    cases h with simp only at he
    | lock =>
      obtain ⟨⟨o,k⟩,hk,rfl⟩ := Option.map_eq_some_iff.mp he
      rw [target_eq] at hk
      obtain ⟨hc,-⟩ := Kernel.waitBody_spec (hs.waiters.list _ _) (hnw _ _) hreal hk
      cases o <;> exact hc.other i hi
    | unlock =>
      obtain ⟨k,hk,rfl⟩ := Option.map_eq_some_iff.mp he
      rw [target_eq] at hk
      obtain ⟨hc,-⟩ := Kernel.signalBody_spec (hs.waiters.list _ _) (hs.waiters.blocked _ _) hk
      exact hc.other i hi
  · cases he

theorem Ok.independent {a : FlowStep} (hs : s.Ok channel) (hsep : channel.Separate) :
    s.Independent channel a := by
  intro op s' hdo he op'
  cases a with
  | call op₁ =>
    unfold step at he
    simp only at he
    split at he
    · rw [enter_semaphores he]
    · cases he
  | proceed =>
    unfold step at he
    simp only at he
    split at he
    · split at he
      · rw [enter_semaphores he]
      · cases he
    · cases he
  | resume =>
    unfold step at he
    simp only at he
    split at he
    · split at he
      · cases he
        rfl
      · cases he
        rfl
      · cases he
    · cases he
  | body =>
    have hbody : ∃ op₁ h, s.phase s.caller = .body op₁ h := by
      unfold step at he
      simp only at he
      split at he
      · split at he
        · rename_i op₁ hp
          exact ⟨op₁,_,hp⟩
        · rename_i op₁ hp
          exact ⟨op₁,_,hp⟩
        · cases he
      · cases he
    obtain ⟨op₁,h,hp⟩ := hbody
    obtain rfl : op₁ = op := by
      have hx : (s.phase s.caller).op? = some op := hdo
      rw [hp] at hx
      exact Option.some.inj hx
    refine body_semaphores hs hp he (fun hx => ?_)
    have hd := (hsep _ _ _ _ hx).2
    cases hy : s.direction channel op₁ <;> rw [hy] at hd <;> cases hd
  | mutexUp =>
    unfold step at he
    simp only at he
    split at he
    · split at he
      · rw [leaveStep_semaphores (fun _ => rfl) he]
      · rw [leaveStep_semaphores (fun _ => rfl) he]
      · rw [leaveStep_semaphores (fun _ => rfl) he]
      · rw [leaveStep_semaphores (fun _ => rfl) he]
      · cases he
    · cases he
  | dispatch t =>
    cases hdo

/-- In every run over the semaphores of a channel, in each direction, the calls of the two
processes keep within the bounds, and no step touches the permits of the other direction. -/
theorem channel_flow_control (hk : StartsOpen channel k) (steps : List FlowStep) :
    Runs.Always (step channel) Bounded (start k) steps ∧
      Runs.Along (step channel) (Independent channel) (start k) steps := by
  have hstep : ∀ s a s', Ok channel s → step channel s a = some s' → Ok channel s' :=
    fun s a s' hs he => step_ok hs hk.separate he
  constructor
  · exact Runs.always_of_invariant hstep (fun s hs => hs.bounded) (start_ok hk) steps
  · exact Runs.along_of_invariant hstep (fun s a hs => hs.independent hk.separate) (start_ok hk) steps

def openChannel : ChannelNode := ⟨1,2,0,1,2,3,[],0⟩

def openKernel : Kernel :=
  { MutexRun.clearedKernel with
    mutexes := fun _ => ⟨⟨1,0⟩,⟨notUsed,0⟩,fun _ => 0,BlockedList.empty,unlocked⟩
    semaphores := fun i => ⟨⟨1,0⟩,fun _ => 0,BlockedList.empty,if i ≤ 1 then 9 else 0,i+1⟩ }

/-- A receiver waits for the message of the sender and gives the permit back. -/
theorem channel_flow_control_single :
    ∃ s, Runs.run (step openChannel) (start openKernel)
      [.call .send,.body,.mutexUp,.dispatch ⟨2,0⟩,.call .receive,.body,.mutexUp,
        .dispatch ⟨1,0⟩,.proceed,.body,.mutexUp,.dispatch ⟨2,0⟩,.resume,.proceed,.body] = some s ∧
      s.Bounded ∧ s.pastUnlock .receive true = 1 := by
  have hk : StartsOpen openChannel openKernel := by
    refine ⟨?_,?_,?_,fun _ _ => BlockedList.empty_holds,fun _ _ => BlockedList.empty_holds⟩
    · intro op d op' d'
      cases op <;> cases d <;> cases op' <;> cases d' <;> decide
    · intro op d
      cases op <;> cases d <;> decide
    · intro op d
      cases op <;> cases d <;> decide
  have hs : ∃ s, Runs.run (step openChannel) (start openKernel)
      [.call .send,.body,.mutexUp,.dispatch ⟨2,0⟩,.call .receive,.body,.mutexUp,
        .dispatch ⟨1,0⟩,.proceed,.body,.mutexUp,.dispatch ⟨2,0⟩,.resume,.proceed,.body] = some s ∧
      s.pastUnlock .receive true = 1 := by
    refine ⟨_,rfl,?_⟩
    decide
  obtain ⟨s,hs,hone⟩ := hs
  exact ⟨s,hs,(channel_flow_control hk _).1 _ s List.prefix_rfl hs,hone⟩

end ChannelFlow
end ComplexOS
