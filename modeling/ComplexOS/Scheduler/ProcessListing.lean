import ComplexOS.Scheduler.CallerBuffer
import ComplexOS.Scheduler.ProcessTable
import Mathlib.Data.List.TakeWhile

/-! # The listing of the processes

`getProcesses` puts eleven fields for each thread into the caller's buffer, as long as a
rest of its size is left. The offset and the rest are counted separately, and the end of
the text is found by comparing the two. `j` starts at `0`.
-/
namespace ComplexOS
open ByteMemory SlotChains

inductive ListingField
  | text (bytes : List UInt8)
  | number (value base : ℕ)

def ListingField.content : ListingField → List UInt8
  | .text bs => bs
  | .number value base => uintToBase value base

def ProcessState.label : ProcessState → List UInt8
  | .running => bytes "Running"
  | .ready => bytes "Ready"
  | .blocked => bytes "Blocked"
  | .sleeping => bytes "Sleeping"

/-- The eleven fields of a thread. A name is what comes before its NUL. -/
def threadFields (p : ProcessRecord) (name : List UInt8) (foreground : Bool) (thread : ℕ)
    (t : Thread) : List ListingField :=
  [.text (bytes "pid: "),.number (toUInt64 p.pid) 10,.text (bytes ", Name: "),
    .text (name.takeWhile (· ≠ 0)),.text (bytes ", Status: "),.text t.state.label,
    .text (bytes ", Stack: 0x"),.number (t.memoryBase % 2^64) 16,.text (bytes ", ThreadId: "),
    .number thread 10,.text (bytes (if foreground then ", Fg\n" else ", Bg\n"))]

def threadLine (p : ProcessRecord) (name : List UInt8) (foreground : Bool) (thread : ℕ) (t : Thread) :
    List UInt8 := (threadFields p name foreground thread t).flatMap ListingField.content

structure Listing where
  out : CallerBuffer
  j : ℤ
  size : ℤ

namespace Listing
variable (l : Listing)

def appended (out : CallerBuffer) (length : ℕ) : Listing := ⟨out,l.j+length,l.size-length⟩

def append : ListingField → Option Listing
  | .text bs => if l.size > 0 then
      (CallerBuffer.copyText l.j bs l.out).map (fun out => l.appended out bs.length)
    else some l
  | .number value base => if l.size > 0 then
      (l.out.uintToBase value base l.j).map (fun (length,out) => l.appended out length)
    else some l

def finish : Option CallerBuffer :=
  if l.j < l.size then l.out.store l.j 0 else l.out.store (l.size-1) 0

end Listing

namespace Session
variable (s : Session) (names : ℤ → List UInt8)

def listThreads (p : ProcessRecord) : ℕ → ℕ → Listing → Option Listing
  | 0, _, l => some l
  | n+1, thread, l =>
    (match (p.threads thread).thread with
    | none => some l
    | some t => Runs.run Listing.append l
        (threadFields p (names p.pid) (decide (s.foreground = some p.pid)) thread t)).bind
      (listThreads p n (thread+1))

def listProcesses : ℕ → ℤ → Listing → Option Listing
  | 0, _, l => some l
  | n+1, k, l => (s.scheduler.process? k).bind (fun p =>
    (s.listThreads names p maxThreads.toNat 0 l).bind (listProcesses n (s.scheduler.link k)))

def getProcesses (buffer : ℕ → UInt8) (size : ℕ) : Option CallerBuffer :=
  (s.listProcesses names s.scheduler.processQuantity.toNat s.scheduler.current
    ⟨⟨size,buffer⟩,0,size⟩).bind Listing.finish

/-! ### What it is for -/

def processLines (p : ProcessRecord) : List UInt8 :=
  (List.range maxThreads.toNat).flatMap (fun (thread : ℕ) => match (p.threads thread).thread with
    | none => []
    | some t => threadLine p (names p.pid) (decide (s.foreground = some p.pid)) thread t)

def listing (slots : List ℤ) : List UInt8 :=
  slots.flatMap (fun k => ((s.scheduler.process? k).map (s.processLines names)).getD [])

/-- Every store is inside the buffer, there is a NUL, and a listing that fits is there. -/
def Listed (slots : List ℤ) (size : ℕ) : Prop :=
  ∀ buffer, ∃ out, s.getProcesses names buffer size = some out ∧ (∃ i < size, out.bytes i = 0) ∧
    ((s.listing names slots).length < size → Placed out.bytes 0 (s.listing names slots++[0]))

end Session

/-! ### One step -/

/-- The numbers of the listing are words, in a base with digits. -/
def ListingField.Fine : ListingField → Prop
  | .text bs => 0 ∉ bs
  | .number value base => value < 2^64 ∧ 2 ≤ base ∧ base ≤ 16

namespace Listing
variable {l l' : Listing} {size n : ℕ} {w : List UInt8} {f : ListingField} {fs : List ListingField}

structure Holds (l : Listing) (size : ℕ) (w : List UInt8) : Prop where
  bound : l.out.bound = size
  j : l.j = w.length
  size : l.size = size-w.length
  text : Placed l.out.bytes 0 w

/-- A field behind the text, with or without its NUL. -/
theorem Holds.placed (h : l.Holds size w) (cs tail : List UInt8) :
    Holds (l.appended { l.out with bytes := place l.out.bytes w.length (cs++tail) } cs.length) size
      (w++cs) := by
  refine ⟨h.bound,?_,?_,?_⟩
  · rw [List.length_append,Nat.cast_add,← h.j]
    rfl
  · rw [List.length_append,Nat.cast_add,← Int.sub_sub,← h.size]
    rfl
  · apply placed_append.mpr
    constructor
    · apply h.text.congr
      intro x hx
      apply place_outside
      have hlt := hx.2
      rintro ⟨hle,-⟩
      omega
    · rw [Nat.zero_add]
      exact (placed_append.mp placed_place).1

theorem Holds.append (h : l.Holds size w) (hf : f.Fine) (hfit : w.length+f.content.length < size) :
    ∃ l', l.append f = some l' ∧ l'.Holds size (w++f.content) := by
  have hgo : l.size > 0 := by
    rw [h.size]
    omega
  have hb := h.bound
  cases f with
  | text bs =>
    have hroom : w.length+bs.length ≤ l.out.bound := by
      rw [hb]
      exact hfit.le
    have hcopy := CallerBuffer.copyText_eq hroom
    rw [Listing.append,if_pos hgo,h.j,hcopy]
    have hplaced := h.placed bs []
    rw [List.append_nil] at hplaced
    exact ⟨_,rfl,hplaced⟩
  | number value base =>
    have hroom : w.length+(uintToBase value base).length+1 ≤ l.out.bound := by
      rw [hb]
      exact hfit
    have hcopy := CallerBuffer.uintToBase_eq hf.2.1 hf.1 hroom
    rw [Listing.append,if_pos hgo,h.j,hcopy]
    exact ⟨_,rfl,h.placed (uintToBase value base) [0]⟩

theorem Holds.run (h : l.Holds size w) (hf : ∀ f ∈ fs, f.Fine)
    (hfit : w.length+(fs.flatMap ListingField.content).length < size) :
    ∃ l', Runs.run Listing.append l fs = some l' ∧
      l'.Holds size (w++fs.flatMap ListingField.content) := by
  induction fs generalizing l w with
  | nil =>
    rw [List.flatMap_nil,List.append_nil]
    exact ⟨l,rfl,h⟩
  | cons f fs ih =>
    rw [List.flatMap_cons,List.length_append] at hfit
    obtain ⟨l₁,h₁,hl₁⟩ := h.append (hf f List.mem_cons_self) (by omega)
    obtain ⟨l₂,h₂,hl₂⟩ := ih hl₁ (fun g hg => hf g (List.mem_cons_of_mem _ hg))
      (by rw [List.length_append]; omega)
    rw [List.append_assoc] at hl₂
    exact ⟨l₂,Runs.run_cons.mpr ⟨l₁,h₁,h₂⟩,hl₂⟩

/-- The offset and the rest always make up the size, and only a rest stops the text. -/
structure Counted (l : Listing) (size n : ℕ) : Prop where
  bound : l.out.bound = size
  sum : l.j+l.size = size
  offset : l.size ≤ 0 ∨ l.j = n

theorem Counted.append (h : l.Counted size n) (hf : f.Fine) (ha : l.append f = some l') :
    l'.Counted size (n+f.content.length) := by
  obtain ⟨hbound,hsum,hoffset⟩ := h
  cases f with
  | text bs =>
    rw [Listing.append] at ha
    split_ifs at ha with hgo
    · obtain ⟨out,hout,rfl⟩ := Option.map_eq_some_iff.mp ha
      refine ⟨(CallerBuffer.copyText_bound hout).trans hbound,?_,?_⟩
      · change l.j+bs.length+(l.size-bs.length) = size
        omega
      · right
        change l.j+bs.length = (n+bs.length : ℕ)
        omega
    · cases ha
      exact ⟨hbound,hsum,Or.inl (by omega)⟩
  | number value base =>
    rw [Listing.append] at ha
    split_ifs at ha with hgo
    · obtain ⟨⟨length,out⟩,hout,rfl⟩ := Option.map_eq_some_iff.mp ha
      obtain ⟨rfl,hb⟩ := CallerBuffer.uintToBase_some hf.2.1 hout
      refine ⟨hb.trans hbound,?_,?_⟩
      · change l.j+(uintToBase value base).length+(l.size-(uintToBase value base).length) = size
        omega
      · right
        change l.j+(uintToBase value base).length = (n+(uintToBase value base).length : ℕ)
        omega
    · cases ha
      exact ⟨hbound,hsum,Or.inl (by omega)⟩

theorem Counted.run (h : l.Counted size n) (hf : ∀ f ∈ fs, f.Fine)
    (hr : Runs.run Listing.append l fs = some l') :
    l'.Counted size (n+(fs.flatMap ListingField.content).length) := by
  induction fs generalizing l n with
  | nil =>
    cases hr
    exact h
  | cons f fs ih =>
    obtain ⟨l₁,h₁,h₂⟩ := Runs.run_cons.mp hr
    have hrest := ih (h.append (hf f List.mem_cons_self) h₁)
      (fun g hg => hf g (List.mem_cons_of_mem _ hg)) h₂
    rwa [List.flatMap_cons,List.length_append,← Nat.add_assoc]

/-- A text that does not fit leaves no rest, and the NUL goes before the buffer. -/
theorem Counted.finish (h : l.Counted size n) (hpos : 1 ≤ size) (hn : size ≤ n) : l.finish = none := by
  obtain ⟨-,hsum,hoffset⟩ := h
  rw [Listing.finish,if_neg (by omega),CallerBuffer.store_before (by omega)]

end Listing

/-! ### The whole call -/

theorem digit_ne_zero : ∀ r < 16, digit r ≠ 0 := by decide

theorem uintToBase_ne_zero {value base : ℕ} (hb : 2 ≤ base) (hle : base ≤ 16) :
    0 ∉ uintToBase value base := by
  unfold uintToBase
  rw [List.mem_reverse,List.mem_map]
  rintro ⟨r,hr,hzero⟩
  refine digit_ne_zero r ?_ hzero
  split_ifs at hr
  · rw [List.mem_singleton.mp hr]
    omega
  · exact (Nat.digits_lt_base hb hr).trans_le hle

theorem ListingField.Fine.content {f : ListingField} (h : f.Fine) : 0 ∉ f.content := by
  cases f with
  | text bs => exact h
  | number value base => exact uintToBase_ne_zero h.2.1 h.2.2

theorem threadFields_fine {p : ProcessRecord} {name : List UInt8} {foreground : Bool} {thread : ℕ}
    {t : Thread} (ht : thread < 2^64) :
    ∀ f ∈ threadFields p name foreground thread t, f.Fine := by
  have hpid : toUInt64 p.pid < 2^64 := by
    unfold toUInt64
    omega
  have hbase : t.memoryBase % 2^64 < 2^64 := Nat.mod_lt _ (by omega)
  have hname : 0 ∉ name.takeWhile (· ≠ 0) := by
    intro h
    have hne := List.mem_takeWhile_imp h
    simp at hne
  have hlabel : 0 ∉ t.state.label := by
    cases t.state <;> decide
  have hground : 0 ∉ bytes (if foreground then ", Fg\n" else ", Bg\n") := by
    cases foreground <;> decide
  intro f hf
  simp only [threadFields,List.mem_cons,List.not_mem_nil,or_false] at hf
  rcases hf with rfl | rfl | rfl | rfl | rfl | rfl | rfl | rfl | rfl | rfl | rfl
  · exact (by decide : 0 ∉ bytes "pid: ")
  · exact ⟨hpid,by omega,by omega⟩
  · exact (by decide : 0 ∉ bytes ", Name: ")
  · exact hname
  · exact (by decide : 0 ∉ bytes ", Status: ")
  · exact hlabel
  · exact (by decide : 0 ∉ bytes ", Stack: 0x")
  · exact ⟨hbase,by omega,by omega⟩
  · exact (by decide : 0 ∉ bytes ", ThreadId: ")
  · exact ⟨ht,by omega,by omega⟩
  · exact hground

namespace Session
variable {s : Session} {names : ℤ → List UInt8} {slots : List ℤ} {l : Listing} {k e : ℤ} {n size thread : ℕ}

def slotFields (s : Session) (names : ℤ → List UInt8) (p : ProcessRecord) (thread : ℕ) :
    List ListingField :=
  match (p.threads thread).thread with
  | none => []
  | some t => threadFields p (names p.pid) (decide (s.foreground = some p.pid)) thread t

def fields (s : Session) (names : ℤ → List UInt8) (slots : List ℤ) : List ListingField :=
  slots.flatMap (fun k => ((s.scheduler.process? k).map (fun p =>
    (List.range maxThreads.toNat).flatMap (s.slotFields names p))).getD [])

theorem listThreads_eq (p : ProcessRecord) : s.listThreads names p n thread l =
    Runs.run Listing.append l ((List.range' thread n).flatMap (s.slotFields names p)) := by
  induction n generalizing thread l with
  | zero => rfl
  | succ n ih =>
    rw [listThreads,List.range'_succ,List.flatMap_cons,Runs.run_append_bind]
    unfold slotFields
    cases (p.threads thread).thread with
    | none =>
      rw [Runs.run_nil,Option.bind_some,Option.bind_some]
      exact ih
    | some t =>
      congr 1
      funext l₁
      exact ih

theorem listProcesses_eq (hp : Path s.scheduler.link k slots e)
    (hl : ∀ i ∈ slots, s.scheduler.Live i) : s.listProcesses names slots.length k l =
      Runs.run Listing.append l (s.fields names slots) := by
  induction slots generalizing k l with
  | nil => rfl
  | cons i slots ih =>
    obtain ⟨rfl,hp⟩ := hp
    obtain ⟨p,hi⟩ := Option.isSome_iff_exists.mp (hl k List.mem_cons_self)
    have hfields : s.fields names (k::slots) =
        (List.range maxThreads.toNat).flatMap (s.slotFields names p)++s.fields names slots := by
      rw [fields,List.flatMap_cons,hi]
      rfl
    rw [List.length_cons,listProcesses,hi,Option.bind_some,hfields,Runs.run_append_bind,
      listThreads_eq,← List.range_eq_range']
    congr 1
    funext l₁
    exact ih hp (fun j hj => hl j (List.mem_cons_of_mem _ hj))

theorem fields_content : (s.fields names slots).flatMap ListingField.content =
    s.listing names slots := by
  unfold fields listing
  rw [List.flatMap_assoc]
  congr 1
  funext k
  cases s.scheduler.process? k with
  | none => rfl
  | some p =>
    rw [Option.map_some,Option.getD_some,Option.map_some,Option.getD_some,List.flatMap_assoc]
    unfold processLines
    congr 1
    funext thread
    unfold slotFields
    cases (p.threads thread).thread with
    | none => rfl
    | some t => rfl

theorem fields_fine : ∀ f ∈ s.fields names slots, f.Fine := by
  intro f hf
  obtain ⟨k,-,hf⟩ := List.mem_flatMap.mp hf
  cases hp : s.scheduler.process? k with
  | none =>
    rw [hp] at hf
    cases hf
  | some p =>
    rw [hp] at hf
    obtain ⟨thread,hthread,hf⟩ := List.mem_flatMap.mp hf
    unfold slotFields at hf
    cases ht : (p.threads thread).thread with
    | none =>
      rw [ht] at hf
      cases hf
    | some t =>
      rw [ht] at hf
      have hlt : thread < 32 := List.mem_range.mp hthread
      exact threadFields_fine (by omega) f hf

theorem listing_ne_zero : 0 ∉ s.listing names slots := by
  rw [← fields_content]
  intro h
  obtain ⟨f,hf,hzero⟩ := List.mem_flatMap.mp h
  exact (fields_fine f hf).content hzero

theorem getProcesses_eq (h : s.scheduler.Queued slots) (buffer : ℕ → UInt8) :
    s.getProcesses names buffer size =
      (Runs.run Listing.append ⟨⟨size,buffer⟩,0,size⟩ (s.fields names slots)).bind
        Listing.finish := by
  obtain ⟨e,hp⟩ := h.path
  rw [getProcesses,h.toNat,listProcesses_eq hp (fun i hi => ((h.live i).mp hi).2)]

/-- The call stays in the caller's buffer and leaves the listing there exactly if the listing
takes up less than half of it. -/
theorem process_listing (h : s.scheduler.Queued slots) (names : ℤ → List UInt8) (hpos : 1 ≤ size) :
    s.Listed names slots size ↔ 2*(s.listing names slots).length < size := by
  by_cases hfit : (s.listing names slots).length < size
  · have hrun : ∀ buffer, ∃ l, Runs.run Listing.append ⟨⟨size,buffer⟩,0,size⟩ (s.fields names slots) =
        some l ∧ l.Holds size (s.listing names slots) := by
      intro buffer
      have hstart : Listing.Holds ⟨⟨size,buffer⟩,0,size⟩ size [] :=
        ⟨rfl,rfl,(Int.sub_zero _).symm,placed_nil⟩
      have hroom : ([] : List UInt8).length+
          ((s.fields names slots).flatMap ListingField.content).length < size := by
        rw [fields_content,List.length_nil,Nat.zero_add]
        exact hfit
      obtain ⟨l,hl,hholds⟩ := hstart.run fields_fine hroom
      rw [fields_content,List.nil_append] at hholds
      exact ⟨l,hl,hholds⟩
    constructor
    · intro hlisted
      by_contra hhalf
      obtain ⟨l,hl,hbound,hj,hsize,htext⟩ := hrun (fun _ => 0)
      obtain ⟨out,hout,-,hplaced⟩ := hlisted (fun _ => 0)
      have hplace : l.size-1 = (size-(s.listing names slots).length-1 : ℕ) := by omega
      rw [getProcesses_eq h,hl,Option.bind_some,Listing.finish,if_neg (by omega),hplace,
        CallerBuffer.store_at (by omega)] at hout
      obtain rfl := Option.some.inj hout
      -- the NUL has gone into the text
      have hin : size-(s.listing names slots).length-1 < (s.listing names slots).length := by omega
      have hbyte := (placed_append.mp (hplaced hfit)).1 _ _ (List.getElem?_eq_getElem hin)
      rw [Nat.zero_add] at hbyte
      change Function.update l.out.bytes _ 0 _ = _ at hbyte
      rw [Function.update_self] at hbyte
      exact listing_ne_zero (hbyte ▸ List.getElem_mem hin)
    · intro hhalf buffer
      obtain ⟨l,hl,hbound,hj,hsize,htext⟩ := hrun buffer
      have hstore := CallerBuffer.store_at (c := 0) (b := l.out) (k := (s.listing names slots).length)
        (by omega)
      refine ⟨_,by rw [getProcesses_eq h,hl,Option.bind_some,Listing.finish,if_pos (by omega),hj,hstore],
        ⟨_,hfit,Function.update_self _ _ _⟩,fun _ => ?_⟩
      apply placed_append.mpr
      constructor
      · apply htext.congr
        intro x hx
        apply Function.update_of_ne
        have hlt := hx.2
        omega
      · rw [Nat.zero_add]
        apply placed_cons.mpr
        exact ⟨Function.update_self _ _ _,placed_nil⟩
  · refine iff_of_false (fun hlisted => ?_) (by omega)
    obtain ⟨out,hout,-⟩ := hlisted (fun _ => 0)
    rw [getProcesses_eq h] at hout
    obtain ⟨l,hl,hfinish⟩ := Option.bind_eq_some_iff.mp hout
    have hstart : Listing.Counted ⟨⟨size,fun _ => 0⟩,0,size⟩ size 0 :=
      ⟨rfl,Int.zero_add _,Or.inr rfl⟩
    have hcounted := hstart.run fields_fine hl
    rw [fields_content,Nat.zero_add] at hcounted
    rw [hcounted.finish hpos (by omega)] at hfinish
    cases hfinish

/-! ### Two processes, and one alone -/

def pair : Session where
  scheduler := ({ Scheduler.initializeScheduler with
    processes := fun i => ⟨if i = 0 then 1 else 0,none⟩
    processQuantity := 2 }.setProcess 0 (some ⟨1,0,0,fun t =>
      if t = 0 then ⟨0,some ⟨.running,notWaiting,0x600000⟩⟩ else ⟨0,none⟩,0x602000⟩)).setProcess 1
    (some ⟨2,1,0,fun t => if t = 0 then ⟨1,some ⟨.ready,notWaiting,0x603000⟩⟩ else
      if t = 1 then ⟨0,some ⟨.blocked,notWaiting,0x605000⟩⟩ else ⟨0,none⟩,0x607000⟩)
  foreground := some 1
  nextPid := 3

theorem pair_queued : pair.scheduler.Queued [0,1] := by
  refine ⟨fun i => ?_,⟨rfl,by decide,rfl,rfl⟩,rfl⟩
  simp only [List.mem_cons,List.not_mem_nil,or_false]
  constructor
  · rintro (rfl | rfl) <;> exact ⟨by decide,rfl⟩
  · rintro ⟨-,hlive⟩
    by_contra hi
    obtain ⟨h0,h1⟩ := not_or.mp hi
    have hnone : pair.scheduler.process? i = none := by
      unfold pair
      rw [Scheduler.process?_setProcess,if_neg h1,Scheduler.process?_setProcess,if_neg h0]
      rfl
    unfold Scheduler.Live at hlive
    rw [hnone] at hlive
    cases hlive

def pairName : ℤ → List UInt8 := fun pid => if pid = 1 then bytes "init" else bytes "shell"

/-- Three lines of 210 characters in a buffer of 421. -/
theorem process_listing_pair : pair.scheduler.Queued [0,1] ∧
    (pair.listing pairName [0,1]).length = 210 ∧ pair.Listed pairName [0,1] 421 := by
  have hlength : (pair.listing pairName [0,1]).length = 210 := by decide +kernel
  refine ⟨pair_queued,hlength,(process_listing pair_queued pairName (by omega)).mpr ?_⟩
  rw [hlength]
  omega

def alone : Session where
  scheduler := { Scheduler.initializeScheduler with
    processes := fun _ => ⟨0,none⟩
    processQuantity := 1 }.setProcess 0 (some ⟨1,0,0,fun t =>
      if t = 0 then ⟨0,some ⟨.running,notWaiting,0x600000⟩⟩ else ⟨0,none⟩,0x602000⟩)
  foreground := none
  nextPid := 2

theorem alone_queued : alone.scheduler.Queued [0] := by
  refine ⟨fun i => ?_,⟨rfl,Ring.single rfl⟩,rfl⟩
  rw [List.mem_singleton]
  constructor
  · rintro rfl
    exact ⟨by decide,rfl⟩
  · rintro ⟨-,hlive⟩
    by_contra hi
    have hnone : alone.scheduler.process? i = none := by
      unfold alone
      rw [Scheduler.process?_setProcess,if_neg hi]
      rfl
    unfold Scheduler.Live at hlive
    rw [hnone] at hlive
    cases hlive

def aloneName : ℤ → List UInt8 := fun _ => bytes "init"

/-- One line of 70 characters is cut in a buffer of 100, and with one of 50 the NUL goes
outside. -/
theorem not_process_listing : ∃ (s : Session) (names : ℤ → List UInt8) (slots : List ℤ),
    s.scheduler.Queued slots ∧ ¬ s.Listed names slots 100 ∧ ¬ s.Listed names slots 50 := by
  refine ⟨alone,aloneName,[0],alone_queued,fun h => ?_,fun h => ?_⟩
  · obtain ⟨out,hout,-,hplaced⟩ := h (fun _ => 0)
    have hcut : (alone.getProcesses aloneName (fun _ => 0) 100).map (fun out => out.bytes 29) =
        some 0 := by decide +kernel
    have htext : (alone.listing aloneName [0]++[0])[29]? = some 117 := by decide +kernel
    have hfit : (alone.listing aloneName [0]).length < 100 := by decide +kernel
    rw [hout,Option.map_some] at hcut
    have hbyte := (hplaced hfit) 29 117 htext
    rw [Nat.zero_add,Option.some.inj hcut] at hbyte
    cases hbyte
  · obtain ⟨out,hout,-⟩ := h (fun _ => 0)
    have hnone : (alone.getProcesses aloneName (fun _ => 0) 50).isNone := by decide +kernel
    rw [hout] at hnone
    cases hnone

end Session
end ComplexOS
