import ComplexOS.Ipc.PipeCalls
import ComplexOS.Library.Runs

/-! # Descriptors of pipes

`pipes.c` as the table that names and descriptors lead into. A descriptor is the slot plus
three, behind the streams; each function translates on its own. The calls are those of the
kernel, and one that waits does not come back.
-/
namespace ComplexOS
open Kernel Registry

abbrev PipeTable := ℕ → PipeEntry

inductive PipeOperation
  | get (name : List UInt8)
  | close (fd : ℤ)

structure PipeRequest where
  processes : ℤ → Option Process
  pid : ℤ
  operation : PipeOperation

namespace PipeRequest

def Named (c : PipeRequest) : Prop :=
  0 < c.pid ∧ match c.operation with
    | .get name => name.length < nameLength ∧ 0 ∉ name
    | .close _ => True

def arrive (c : PipeRequest) (s : Registry) : Registry :=
  { s with kernel := { s.kernel with processes := c.processes, current := c.pid } }

end PipeRequest

namespace PipeTable
variable (pipes : PipeTable) (name : List UInt8)

def step (s : Registry) (c : PipeRequest) : Option Registry :=
  match c.operation with
  | .get name => (sysOpenPipe name (c.arrive s)).toOption.map Prod.snd
  | .close fd => (sysClosePipe fd (c.arrive s)).toOption.map Prod.snd

def Bears (i : ℕ) (name : List UInt8) : Prop :=
  i < maxPipes ∧ (pipes i).used = true ∧ Spells (pipes i).name name

def Free (i : ℕ) : Prop := i < maxPipes ∧ (pipes i).used = false

instance (i : ℕ) : Decidable (pipes.Free i) := inferInstanceAs (Decidable (_ ∧ _))

structure Opened (i : ℕ) (name : List UInt8) (t : ThreadId) (pipes' : PipeTable) : Prop where
  free : pipes.Free i
  bears : pipes'.Bears i name
  creator : (pipes' i).creator = t
  others : ∀ j, j ≠ i → pipes' j = pipes j

structure Found (name : List UInt8) (t : ThreadId) (r : ℤ) (pipes' : PipeTable) : Prop where
  live : ∀ i, pipes.Bears i name → r = i+streams ∧ pipes' = pipes
  fresh : (∀ i, ¬ pipes.Bears i name) → (∃ i, pipes.Free i) →
    ∃ i : ℕ, r = i+streams ∧ pipes.Opened i name t pipes'
  full : (∀ i, ¬ pipes.Bears i name) → (∀ i, ¬ pipes.Free i) →
    ¬ (0 ≤ r ∧ r < streams+maxPipes) ∧ pipes' = pipes

/-- What is asked of the two calls, which come back. A descriptor is closed by the creator of its
pipe. -/
def Serves (s : Registry) (c : PipeRequest) : Prop :=
  let s := c.arrive s
  match c.operation with
  | .get name => ∃ r s', sysOpenPipe name s = .ok (r,s') ∧
    Found s.pipes name s.kernel.caller r s'.pipes
  | .close fd => ∃ r s', sysClosePipe fd s = .ok (r,s') ∧
    ∀ i, s.transferSlot fd = some i → (s.pipes i).creator = s.kernel.caller →
      s'.pipes = Function.update s.pipes i { s.pipes i with used := false }

structure Ready (s : Registry) (i : ℕ) (name : List UInt8) : Prop where
  free : Free s.pipes i
  first : ∀ j < i, ¬ Free s.pipes j
  ends : (s.pipes i).name name.length = 0
  unlocked : (s.kernel.mutexes adminMutex).value ≠ locked
  room : PipeRoom s.kernel.getpid s.kernel.getCurrentThread i s

/-- A name is asked for that is there, or a new pipe can be had. Nobody closes a descriptor of a
pipe of its own, nor by its number a slot of its own while `adminMutex` is locked. -/
def Calm (s : Registry) (c : PipeRequest) : Prop :=
  let s := c.arrive s
  match c.operation with
  | .get name => (∃ i, Bears s.pipes i name) ∨ ∃ i, Ready s i name
  | .close fd => (∀ i, s.transferSlot fd = some i → (s.pipes i).creator ≠ s.kernel.caller) ∧
    (s.isValidPipe fd → (s.pipes fd.toNat).creator = s.kernel.caller →
      (s.kernel.mutexes adminMutex).value ≠ locked)

def Distinct : Prop := ∀ i j name, 0 ∉ name → pipes.Bears i name → pipes.Bears j name → i = j

variable {pipes name} {pipes' : PipeTable} {t : ThreadId} {s s' : Registry} {r fd pid thread : ℤ}
  {i j : ℕ} {c : PipeRequest}

structure Settled (s : Registry) : Prop where
  rests : s.Rests
  buffers : ∀ i, (s.pipes i).buffer = BuddyAllocator.null ∨ BuddyAllocator.InArena (s.pipes i).buffer
  distinct : Distinct s.pipes

theorem Settled.arrive (h : Settled s) : Settled (c.arrive s) :=
  ⟨⟨h.rests.guarded.congr (fun _ _ _ => rfl) rfl,h.rests.sound,h.rests.opened,h.rests.waiters,
    h.rests.semaphoreMutex,h.rests.buddyMutex,h.rests.heap⟩,h.buffers,h.distinct⟩

theorem mem_range : i < maxPipes.toNat ↔ i < maxPipes := by
  show i < 10 ↔ (i : ℤ) < 10
  omega

theorem found (hn : 0 ∉ name) (h : SlotTable.firstUsed
    (fun p : PipeEntry => strcmp p.name name = 0 ∧ p.used = true) maxPipes.toNat pipes = some i) :
    pipes.Bears i name := by
  obtain ⟨hi,hc,hu⟩ := SlotTable.firstUsed_some h
  exact ⟨mem_range.mp hi,hu,(strcmp_eq_zero hn).mp hc⟩

theorem not_found (hn : 0 ∉ name) (h : SlotTable.firstUsed
    (fun p : PipeEntry => strcmp p.name name = 0 ∧ p.used = true) maxPipes.toNat pipes = none) :
    ¬ pipes.Bears i name :=
  fun hb => SlotTable.firstUsed_none h (mem_range.mpr hb.1) ⟨(strcmp_eq_zero hn).mpr hb.2.2,hb.2.1⟩

theorem free_iff : pipes.Free i ↔ i < maxPipes.toNat ∧ ¬ (pipes i).used = true := by
  unfold Free
  rw [Bool.not_eq_true,mem_range]

theorem first_unique (hi : pipes.Free i) (hfirst : ∀ l < i, ¬ pipes.Free l) (hj : pipes.Free j)
    (hfirst' : ∀ l < j, ¬ pipes.Free l) : i = j := by
  rcases lt_trichotomy i j with h | h | h
  · exact absurd hi (hfirst' i h)
  · exact h
  · exact absurd hj (hfirst j h)

/-- The three ways of `getPipe`. -/
theorem getPipe_cases (s : Registry) (hn : 0 ∉ name) :
    (∃ i, Bears s.pipes i name ∧ getPipe name s = .ok ((i : ℤ)+3,s)) ∨
      ((∀ i, ¬ Bears s.pipes i name) ∧ ∃ i, Free s.pipes i ∧ (∀ j < i, ¬ Free s.pipes j) ∧
        getPipe name s = (do
          equipPipe i s.kernel.getpid s.kernel.getCurrentThread
          pure ((i : ℤ)+3) : KernelCall ℤ) (s.setPipe i (fun p => p.claim name s.kernel.caller))) ∨
      ((∀ i, ¬ Bears s.pipes i name) ∧ (∀ i, ¬ Free s.pipes i) ∧ getPipe name s = .ok (2,s)) := by
  unfold getPipe
  rw [Call.get_bind]
  cases hu : SlotTable.firstUsed (fun p : PipeEntry => strcmp p.name name = 0 ∧ p.used = true)
      maxPipes.toNat s.pipes with
  | some i => exact Or.inl ⟨i,found hn hu,rfl⟩
  | none =>
    refine Or.inr ?_
    simp only [createPipe]
    cases hf : SlotTable.firstFree (fun p : PipeEntry => p.used = true) maxPipes.toNat s.pipes with
    | some i =>
      refine Or.inl ⟨fun _ => not_found hn hu,i,free_iff.mpr (SlotTable.firstFree_some hf),
        fun j hj hx => ?_,?_⟩
      · have hused := (List.find?_range_eq_some.mp hf).2.2 j hj
        simp [(free_iff.mp hx).2] at hused
      · simp only [bind_assoc,Call.get_bind,hf,Call.modify_bind,pure_bind]
    | none =>
      refine Or.inr ⟨fun _ => not_found hn hu,fun j hx => ?_,?_⟩
      · exact (free_iff.mp hx).2 (SlotTable.firstFree_none hf (free_iff.mp hx).1)
      · simp only [bind_assoc,Call.get_bind,hf,pure_bind]
        rfl

/-- The name in a new slot is the one asked for exactly if the old one ends no later. -/
theorem claim_spells {p : PipeEntry} : Spells (p.claim name t).name name ↔ p.name name.length = 0 :=
  spells_copied

/-- The slot that a new pipe gets is the claimed one, with its resources. -/
theorem equipped_slot (h : Equipped i (s.setPipe i (fun p => p.claim name t)) s') :
    ∃ p : PipeEntry, p.used = true ∧ p.creator = t ∧ p.name = ((s.pipes i).claim name t).name ∧
      (p.buffer = BuddyAllocator.null ∨ BuddyAllocator.InArena p.buffer) ∧
      s'.pipes = Function.update s.pipes i p := by
  obtain ⟨b,w,r,m,hb,hs⟩ := h.pipes
  have hclaim : (s.setPipe i (fun p => p.claim name t)).pipes =
      Function.update s.pipes i ((s.pipes i).claim name t) := rfl
  rw [hclaim,Function.update_self,Function.update_idem] at hs
  obtain ⟨p,hp⟩ : ∃ p : PipeEntry, { (s.pipes i).claim name t with
    buffer := b, semWrite := w, semRead := r, mutex := m } = p := ⟨_,rfl⟩
  rw [hp] at hs
  exact ⟨p,hp ▸ rfl,hp ▸ rfl,hp ▸ rfl,hp ▸ hb,hs⟩

theorem opened (hf : Free s.pipes i) (h0 : (s.pipes i).name name.length = 0)
    (h : Equipped i (s.setPipe i (fun p => p.claim name t)) s') :
    Opened s.pipes i name t s'.pipes := by
  obtain ⟨p,hu,hc,hname,-,hs⟩ := equipped_slot h
  rw [hs]
  constructor
  · exact hf
  · unfold Bears
    rw [Function.update_self,hname]
    exact ⟨hf.1,hu,claim_spells.mpr h0⟩
  · rw [Function.update_self,hc]
  · intro j hj
    rw [Function.update_of_ne hj]

/-! ### Names stay apart -/

theorem Distinct.opened (h : pipes.Distinct) (hn : 0 ∉ name) (hno : ∀ i, ¬ pipes.Bears i name)
    (ho : pipes.Opened i name t pipes') : pipes'.Distinct := by
  have hold : ∀ j n, j ≠ i → pipes'.Bears j n → pipes.Bears j n := by
    intro j n hj hb
    unfold Bears at hb
    rw [ho.others j hj] at hb
    exact hb
  have hnew : ∀ j n, j ≠ i → 0 ∉ n → pipes'.Bears i n → ¬ pipes'.Bears j n := by
    intro j n hj h0 hi hb
    rw [hi.2.2.unique h0 hn ho.bears.2.2] at hb
    exact hno j (hold j name hj hb)
  intro j l n h0 hj hl
  by_cases hji : j = i
  · by_cases hli : l = i
    · rw [hji,hli]
    · exact absurd hl (hnew l n hli h0 (hji ▸ hj))
  · by_cases hli : l = i
    · exact absurd hj (hnew j n hji h0 (hli ▸ hl))
    · exact h j l n h0 (hold j n hji hj) (hold l n hli hl)

theorem Distinct.closed (h : pipes.Distinct) :
    Distinct (Function.update pipes i { pipes i with used := false }) := by
  have hold : ∀ j n, Bears (Function.update pipes i { pipes i with used := false }) j n →
      pipes.Bears j n := by
    intro j n hb
    unfold Bears at hb
    by_cases hj : j = i
    · subst hj
      rw [Function.update_self] at hb
      cases hb.2.1
    · rw [Function.update_of_ne hj] at hb
      exact hb
  exact fun j l n h0 hj hl => h j l n h0 (hold j n hj) (hold l n hl)

/-! ### One request -/

theorem Ready.equips (h : Settled s) (hr : Ready s i name) :
    ∃ s', equipPipe i s.kernel.getpid s.kernel.getCurrentThread
      (s.setPipe i (fun p => p.claim name s.kernel.caller)) = .ok ((),s') ∧
      Equipped i (s.setPipe i (fun p => p.claim name s.kernel.caller)) s' :=
  equipPipe_equips h.rests.setPipe
    ((h.rests.sound adminMutex (by decide)).open_value hr.unlocked) (pipeRoom_setPipe.mpr hr.room)

theorem Settled.opened (h : Settled s) (hn : 0 ∉ name) (hno : ∀ i, ¬ Bears s.pipes i name)
    (hr : Ready s i name) (he : Equipped i (s.setPipe i (fun p => p.claim name t)) s') :
    Settled s' := by
  refine ⟨he.rests,fun j => ?_,h.distinct.opened hn hno (PipeTable.opened hr.free hr.ends he)⟩
  obtain ⟨p,-,-,-,hb,hs⟩ := equipped_slot he
  rw [hs]
  by_cases hj : j = i
  · rw [hj,Function.update_self]
    exact hb
  · rw [Function.update_of_ne hj]
    exact h.buffers j

/-- A new pipe is had exactly if it can be had. -/
theorem fresh_ready (h : Settled s) (hf : Free s.pipes i) (hfirst : ∀ j < i, ¬ Free s.pipes j)
    (hx : equipPipe i s.kernel.getpid s.kernel.getCurrentThread
      (s.setPipe i (fun p => p.claim name s.kernel.caller)) = .ok ((),s'))
    (ho : Opened s.pipes i name s.kernel.caller s'.pipes) : Ready s i name := by
  obtain ⟨ha,hroom⟩ := equipPipe_room h.rests.setPipe hx
  have hopen : (s.kernel.mutexes adminMutex).value ≠ locked := by
    rw [show (s.kernel.mutexes adminMutex).value = unlocked from ha]
    decide
  refine ⟨hf,hfirst,?_,hopen,pipeRoom_setPipe.mp hroom⟩
  obtain ⟨s₁,hx₁,he⟩ := equipPipe_equips (h.rests.setPipe (i := i)
    (f := fun p => p.claim name s.kernel.caller)) ha hroom
  rw [hx] at hx₁
  cases hx₁
  obtain ⟨p,-,-,hname,-,hs⟩ := equipped_slot he
  have hb := ho.bears
  unfold Bears at hb
  rw [hs,Function.update_self,hname] at hb
  exact claim_spells.mp hb.2.2

/-- A pipe that can be had is opened by its first request. -/
theorem Ready.opens (h : Settled s) (hn : 0 ∉ name) (hno : ∀ i, ¬ Bears s.pipes i name)
    (hr : Ready s i name) : ∃ s', sysOpenPipe name s = .ok ((i : ℤ)+3,s') ∧ Settled s' ∧
      Opened s.pipes i name s.kernel.caller s'.pipes := by
  obtain ⟨j,hj,-⟩ | ⟨-,j,hf,hfirst,he⟩ | ⟨-,hfull,-⟩ := getPipe_cases s hn
  · exact absurd hj (hno j)
  · obtain rfl := first_unique hf hfirst hr.free hr.first
    obtain ⟨s',hx,heq⟩ := hr.equips h
    exact ⟨s',he.trans (Call.bind_of_ok hx),h.opened hn hno hr heq,opened hf hr.ends heq⟩
  · exact absurd hr.free (hfull i)

theorem get_iff (h : Settled s) (hn : 0 ∉ name) :
    (∃ r s', sysOpenPipe name s = .ok (r,s') ∧ Found s.pipes name s.kernel.caller r s'.pipes) ↔
      (∃ i, Bears s.pipes i name) ∨ ∃ i, Ready s i name := by
  obtain ⟨i,hb,he⟩ | ⟨hno,i,hf,hfirst,he⟩ | ⟨hno,hfull,he⟩ := getPipe_cases s hn
  · refine ⟨fun _ => Or.inl ⟨i,hb⟩,fun _ => ⟨_,_,he,fun j hj => ?_,fun hno => ?_,fun hno => ?_⟩⟩
    · rw [h.distinct i j name hn hb hj]
      exact ⟨rfl,rfl⟩
    · exact absurd hb (hno i)
    · exact absurd hb (hno i)
  · constructor
    · rintro ⟨r,s',hx,hs⟩
      obtain ⟨⟨⟩,s₁,hx,hy⟩ := Call.bind_ok.mp (he.symm.trans hx)
      cases hy
      obtain ⟨j,hj,ho⟩ := hs.fresh hno ⟨i,hf⟩
      obtain rfl : i = j := by
        unfold streams at hj
        omega
      exact Or.inr ⟨i,fresh_ready h hf hfirst hx ho⟩
    · rintro (⟨j,hj⟩ | ⟨j,hr⟩)
      · exact absurd hj (hno j)
      · obtain ⟨s',hx,-,ho⟩ := hr.opens h hn hno
        exact ⟨_,s',hx,fun l hl => absurd hl (hno l),fun _ _ => ⟨j,rfl,ho⟩,
          fun _ hfull => absurd hf (hfull i)⟩
  · constructor
    · rintro ⟨r,s',hx,hs⟩
      cases he.symm.trans hx
      exact absurd (by decide) (hs.full hno hfull).1
    · rintro (⟨j,hj⟩ | ⟨j,hr⟩)
      · exact absurd hj (hno j)
      · exact absurd hr.free (hfull j)

theorem transferSlot_some (h : s.transferSlot fd = some i) :
    fd = i+3 ∧ i < maxPipes ∧ (s.pipes i).used = true := by
  unfold transferSlot at h
  split at h
  · rename_i hv
    cases h
    obtain ⟨h0,h1,hu⟩ := hv
    exact ⟨by omega,by omega,hu⟩
  · cases h

/-- A close that is not the caller's to make changes nothing. -/
theorem deletePipe_ignored (h : ¬ (s.isValidPipe fd ∧ (s.pipes fd.toNat).creator = ⟨pid,thread⟩)) :
    deletePipe fd pid thread s = .ok (-1,s) := by
  unfold deletePipe
  rw [Call.get_bind,if_neg h]
  rfl

/-- What a close makes of the table. -/
theorem deletePipe_comes (h : Settled s) (hpid : 0 < pid)
    (ha : s.isValidPipe fd → (s.pipes fd.toNat).creator = ⟨pid,thread⟩ →
      (s.kernel.mutexes adminMutex).value ≠ locked) :
    ∃ r s', deletePipe fd pid thread s = .ok (r,s') ∧ Settled s' ∧
      (s'.pipes = s.pipes ∨
        s'.pipes = Function.update s.pipes fd.toNat { s.pipes fd.toNat with used := false }) := by
  by_cases hv : s.isValidPipe fd ∧ (s.pipes fd.toNat).creator = ⟨pid,thread⟩
  · obtain ⟨s',hx,hr,-,hs⟩ := deletePipe_frees h.rests
      ((h.rests.sound adminMutex (by decide)).open_value (ha hv.1 hv.2)) hpid hv.1 hv.2
      (h.buffers fd.toNat)
    refine ⟨0,s',hx,⟨hr,fun j => ?_,?_⟩,Or.inr hs⟩
    · rw [hs]
      by_cases hj : j = fd.toNat
      · rw [hj,Function.update_self]
        exact h.buffers fd.toNat
      · rw [Function.update_of_ne hj]
        exact h.buffers j
    · rw [hs]
      exact h.distinct.closed
  · exact ⟨-1,s,deletePipe_ignored hv,h,Or.inl rfl⟩

/-- `deletePipe` is given the descriptor, and goes three slots too far with it. -/
theorem close_iff (h : Settled s) (hpid : 0 < s.kernel.getpid) :
    (∃ r s', sysClosePipe fd s = .ok (r,s') ∧
      ∀ i, s.transferSlot fd = some i → (s.pipes i).creator = s.kernel.caller →
        s'.pipes = Function.update s.pipes i { s.pipes i with used := false }) ↔
      (∀ i, s.transferSlot fd = some i → (s.pipes i).creator ≠ s.kernel.caller) ∧
        (s.isValidPipe fd → (s.pipes fd.toNat).creator = s.kernel.caller →
          (s.kernel.mutexes adminMutex).value ≠ locked) := by
  constructor
  · rintro ⟨r,s',hx,hs⟩
    have hopen : s.isValidPipe fd → (s.pipes fd.toNat).creator = s.kernel.caller →
        (s.kernel.mutexes adminMutex).value ≠ locked := by
      intro hv hc hl
      exact deletePipe_lost ⟨⟨h.rests.guarded,hl⟩,h.rests.buddyMutex⟩ hv hc hx
    refine ⟨fun i hi hc => ?_,hopen⟩
    obtain ⟨rfl,-,hu⟩ := transferSlot_some hi
    obtain ⟨r₁,s₁,hx₁,-,hkept⟩ := deletePipe_comes h hpid hopen
    rw [show deletePipe _ _ _ _ = _ from hx] at hx₁
    cases hx₁
    have hslot : (s'.pipes i).used = true := by
      rcases hkept with he | he
      · rw [he]
        exact hu
      · rw [he,Function.update_of_ne (by omega)]
        exact hu
    rw [hs i hi hc,Function.update_self] at hslot
    cases hslot
  · rintro ⟨hno,hopen⟩
    obtain ⟨r,s',hx,-,-⟩ := deletePipe_comes h hpid hopen
    exact ⟨r,s',hx,fun i hi hc => absurd hc (hno i hi)⟩

/-- A request for a name that is there changes nothing. -/
theorem step_found (hn : 0 ∉ name) (hb : Bears s.pipes i name) (hc : c.operation = .get name)
    (hs : step s c = some s') : s' = c.arrive s := by
  obtain ⟨processes,pid,operation⟩ := c
  cases hc
  obtain ⟨x,hx,rfl⟩ := Option.map_eq_some_iff.mp hs
  have hx := ok_of_toOption hx
  obtain ⟨j,-,he⟩ | ⟨hno,-⟩ | ⟨hno,-⟩ := getPipe_cases (PipeRequest.arrive ⟨processes,pid,.get name⟩ s) hn
  · cases he.symm.trans hx
    rfl
  · exact absurd hb (hno i)
  · exact absurd hb (hno i)

theorem serves_iff (h : Settled s) (hc : c.Named) : Serves s c ↔ Calm s c := by
  obtain ⟨processes,pid,operation⟩ := c
  cases operation with
  | get name => exact get_iff h.arrive hc.2.2
  | close fd => exact close_iff h.arrive hc.1

theorem step_settled (h : Settled s) (hc : c.Named) (hcalm : Calm s c) (hs : step s c = some s') :
    Settled s' := by
  obtain ⟨processes,pid,operation⟩ := c
  have ha : Settled (PipeRequest.arrive ⟨processes,pid,operation⟩ s) := h.arrive
  cases operation with
  | get name =>
    obtain ⟨x,hx,rfl⟩ := Option.map_eq_some_iff.mp hs
    have hx := ok_of_toOption hx
    obtain ⟨i,hb,he⟩ | ⟨hno,i,hf,hfirst,he⟩ | ⟨hno,hfull,he⟩ := getPipe_cases _ hc.2.2
    · cases he.symm.trans hx
      exact ha
    · obtain ⟨j,hj⟩ | ⟨j,hr⟩ := hcalm
      · exact absurd hj (hno j)
      · obtain ⟨s',hy,hs',-⟩ := hr.opens ha hc.2.2 hno
        cases hy.symm.trans hx
        exact hs'
    · cases he.symm.trans hx
      exact ha
  | close fd =>
    obtain ⟨x,hx,rfl⟩ := Option.map_eq_some_iff.mp hs
    have hx := ok_of_toOption hx
    obtain ⟨r,s',hy,hkept,-⟩ := deletePipe_comes ha hc.1 hcalm.2
    cases hy.symm.trans hx
    exact hkept

theorem booted_settled (h : s.Booted) : Settled s := by
  have hvalue := h.sane.unlocked_iff.mp h.unlocked
  refine ⟨⟨h.guarded,h.sane.sound,fun i hi _ => ?_,fun i hi => ?_,h.semaphoreMutex,h.buddyMutex,h.heap⟩,
    fun i => ?_,fun i j name _ hi => ?_⟩
  · exact h.open_mutex hi
  · rw [h.semaphores i hi]
    rfl
  · rw [h.pipes]
    exact Or.inl rfl
  · have hused := hi.2.1
    rw [h.pipes] at hused
    cases hused

/-- A run of opens and closes after the boot is served exactly as long as it is calm. -/
theorem pipe_descriptors (cs : List PipeRequest) (hm : main static = .ok ((),s))
    (hn : ∀ c ∈ cs, c.Named) : Runs.Along step Serves s cs ↔ Runs.Along step Calm s cs := by
  obtain ⟨s₀,hm₀,hb⟩ := main_booted
  rw [hm] at hm₀
  cases hm₀
  exact Runs.along_iff (I := Settled) (V := PipeRequest.Named) (fun _ _ hs hc => serves_iff hs hc)
    (fun _ _ _ hs hc hcalm hx => step_settled hs hc hcalm hx) (booted_settled hb) hn

theorem findMutex_of_names {k : Kernel} (h : ∀ j, InMutexes j → strcmp (k.mutexes j).name name ≠ 0) :
    k.findMutex name = none := by
  unfold findMutex
  rw [Option.map_eq_none_iff,SlotTable.firstUsed_eq_none_iff]
  refine Finset.eq_empty_of_forall_notMem (fun j hj => ?_)
  obtain ⟨hj,hname,-⟩ := SlotTable.mem_occupied.mp hj
  exact h j (inMutexes_nat hj) hname

/-- After the boot no mutex bears the name of a semaphore of a pipe, nor does the first one made. -/
theorem booted_room (h : s.Booted) : PipeRoom pid thread 0 s := by
  have hboot : ∀ j, strcmp (bootMutex j).name (semWriteName 0) ≠ 0 ∧
      strcmp (bootMutex j).name (semReadName 0) ≠ 0 := by
    intro j
    unfold bootMutex
    split
    · decide
    · split
      · decide
      · split
        · decide
        · decide
  refine ⟨fun _ => findMutex_of_names (fun j hj => ?_),fun _ => findMutex_of_names (fun j hj => ?_)⟩
  · rw [h.mutexes j hj]
    exact (hboot j).1
  · rw [valued_name]
    have hold : strcmp (s.kernel.mutexes j).name (semReadName 0) ≠ 0 := by
      rw [h.mutexes j hj]
      exact (hboot j).2
    unfold registerSemaphore
    split
    · generalize hx : (claimSemaphore pid (semWriteName 0) thread s).kernel.createMutex pid
        (semWriteName 0) thread = x
      obtain ⟨r,k⟩ := x
      have hk : strcmp (k.mutexes j).name (semReadName 0) ≠ 0 := by
        obtain ⟨-,-,rfl⟩ | ⟨-,-,-,hm,-⟩ := createMutex_cases hx
        · exact hold
        · have hfirst : (claimSemaphore pid (semWriteName 0) thread s).kernel.firstAvailableMutex = 3 :=
            h.firstMutex
          rw [hm,hfirst]
          by_cases he : j = 3
          · rw [he,Function.update_self]
            show strcmp (named (s.kernel.mutexes 3) _ _).name _ ≠ 0
            rw [h.mutexes 3 (by decide)]
            show strcmp (named (bootMutex 3) (semWriteName 0) ⟨0,0⟩).name _ ≠ 0
            decide
          · rw [Function.update_of_ne he]
            exact hold
      cases r with
      | none => exact hk
      | some m => exact hk
    · exact hold

theorem booted_ready (h : s.Booted) (ho : (s.kernel.mutexes adminMutex).value ≠ locked) :
    Ready s 0 name := by
  refine ⟨⟨by decide,?_⟩,fun j hj => absurd hj (Nat.not_lt_zero j),?_,ho,booted_room h⟩
  · rw [h.pipes]
    rfl
  · rw [h.pipes]
    rfl

/-- The first pipe after the boot. -/
theorem booted_opens (h : s.Booted) (c : PipeRequest) (hc : c.operation = .get name) (hn : 0 ∉ name) :
    Calm s c ∧ ∃ s', step s c = some s' ∧ Opened s.pipes 0 name (c.arrive s).kernel.caller s'.pipes := by
  obtain ⟨processes,pid,operation⟩ := c
  cases hc
  have hb : (PipeRequest.arrive ⟨processes,pid,.get name⟩ s).Booted := { h with }
  have hr : Ready (PipeRequest.arrive ⟨processes,pid,.get name⟩ s) 0 name :=
    booted_ready hb (h.open_mutex (by decide))
  have hno : ∀ i, ¬ Bears s.pipes i name := by
    intro i hi
    have hused := hi.2.1
    rw [h.pipes] at hused
    cases hused
  obtain ⟨s',hx,-,ho⟩ := hr.opens (booted_settled hb) hn hno
  refine ⟨Or.inr ⟨0,hr⟩,s',?_,ho⟩
  show (sysOpenPipe name (PipeRequest.arrive ⟨processes,pid,.get name⟩ s)).toOption.map Prod.snd = _
  rw [hx]
  rfl

/-- A pipe is opened and found by another process, which does not close it. -/
theorem pipe_descriptors_shared : ∃ s, main static = .ok ((),s) ∧ Runs.Along step Serves s
    [⟨manyProcesses,1,.get [97]⟩,⟨manyProcesses,2,.get [97]⟩,⟨manyProcesses,2,.close 3⟩] := by
  obtain ⟨s,hm,hb⟩ := main_booted
  refine ⟨s,hm,(pipe_descriptors _ hm ?_).mpr ?_⟩
  · intro c hc
    simp only [List.mem_cons,List.not_mem_nil,or_false] at hc
    rcases hc with rfl | rfl | rfl
    · exact ⟨by decide,by decide,by decide⟩
    · exact ⟨by decide,by decide,by decide⟩
    · exact ⟨by decide,trivial⟩
  · obtain ⟨hcalm,s₁,hs₁,ho⟩ := booted_opens hb ⟨manyProcesses,1,.get [97]⟩ rfl (by decide)
    refine ⟨hcalm,fun t ht => ?_⟩
    rw [hs₁] at ht
    cases ht
    refine ⟨Or.inl ⟨0,ho.bears⟩,fun t ht => ?_⟩
    obtain rfl := step_found (by decide) ho.bears rfl ht
    refine ⟨⟨fun i hi hx => ?_,fun hv => ?_⟩,fun _ _ => trivial⟩
    · obtain ⟨hfd,-,-⟩ := transferSlot_some hi
      obtain rfl : i = 0 := by omega
      exact absurd (congrArg ThreadId.pid (ho.creator.symm.trans hx)) (by decide : (1 : ℤ) ≠ 2)
    · have hused : (s₁.pipes 3).used = true := hv.2.2
      rw [ho.others 3 (by decide),hb.pipes] at hused
      cases hused

/-- The creator closes its pipe, and the pipe stays open. -/
theorem pipe_descriptors_fails : ¬ ∀ s cs, main static = .ok ((),s) →
    (∀ c ∈ cs, PipeRequest.Named c) → Runs.Along step Serves s cs := by
  intro hall
  obtain ⟨s,hm,hb⟩ := main_booted
  have hnamed : PipeRequest.Named ⟨manyProcesses,1,.get [97]⟩ := ⟨by decide,by decide,by decide⟩
  have hrun := hall s [⟨manyProcesses,1,.get [97]⟩,⟨manyProcesses,1,.close 3⟩] hm (by
    intro c hc
    simp only [List.mem_cons,List.not_mem_nil,or_false] at hc
    rcases hc with rfl | rfl
    · exact hnamed
    · exact ⟨by decide,trivial⟩)
  obtain ⟨hcalm,s₁,hs₁,ho⟩ := booted_opens hb ⟨manyProcesses,1,.get [97]⟩ rfl (by decide)
  have hs : Settled s₁ := step_settled (booted_settled hb) hnamed hcalm hs₁
  have hclose := (serves_iff hs ⟨by decide,trivial⟩).mp (hrun.2 s₁ hs₁).1
  have hslot : transferSlot (PipeRequest.arrive ⟨manyProcesses,1,.close 3⟩ s₁) 3 = some 0 :=
    if_pos ⟨by decide,by decide,ho.bears.2.1⟩
  exact hclose.1 0 hslot ho.creator

end PipeTable
end ComplexOS
