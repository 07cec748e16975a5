import ComplexOS.Kernel.NamedRegistry
import ComplexOS.Library.Terminated
import ComplexOS.Scheduler.NumberText

/-! # The names of the semaphores of a channel

Flag, sender and recipient can be read off a name. Two semaphores can share a mutex even so:
the names of a process's channel with itself come in pairs, and the copy of a name into a
slot does not end it.
-/
namespace ComplexOS
open ByteMemory Terminated Numerals

namespace CallerBuffer
variable (senderPid recipientPid : ℤ) (send : Bool) (b : CallerBuffer)

def generateChannelMutexName : Option CallerBuffer :=
  (copyText 0 (ComplexOS.bytes (if send then "chS" else "chR")) b).bind (fun b =>
    (b.uintToBase (toUInt64 senderPid) 10 3).bind (fun (senderDigits,b) =>
      (b.store (3+senderDigits) 59).bind (fun b =>
        (b.uintToBase (toUInt64 recipientPid) 10 (3+senderDigits+1)).map Prod.snd)))

end CallerBuffer

def IsPid (pid : ℤ) : Prop := 0 ≤ pid ∧ pid < 2^31

instance (pid : ℤ) : Decidable (IsPid pid) := inferInstanceAs (Decidable (_ ∧ _))

inductive ChannelSemaphoreRole
  | senderSend
  | recipientSend
  | senderReceive
  | recipientReceive
  deriving DecidableEq, Repr

structure ChannelSemaphore where
  senderPid : ℤ
  recipientPid : ℤ
  role : ChannelSemaphoreRole
  deriving DecidableEq, Repr

namespace ChannelSemaphore

def name (x : ChannelSemaphore) : List UInt8 := match x.role with
  | .senderSend => generateChannelMutexName x.senderPid x.recipientPid true
  | .recipientSend => generateChannelMutexName x.recipientPid x.senderPid true
  | .senderReceive => generateChannelMutexName x.senderPid x.recipientPid false
  | .recipientReceive => generateChannelMutexName x.recipientPid x.senderPid false

def HasPids (x : ChannelSemaphore) : Prop := IsPid x.senderPid ∧ IsPid x.recipientPid

def Other (x y : ChannelSemaphore) : Prop :=
  (y.senderPid = x.senderPid ∧ y.recipientPid = x.recipientPid ∧ y.role ≠ x.role) ∨
    ¬ (y.senderPid = x.senderPid ∧ y.recipientPid = x.recipientPid ∨
      y.senderPid = x.recipientPid ∧ y.recipientPid = x.senderPid)

def firstPid (x : ChannelSemaphore) : ℤ := match x.role with
  | .senderSend | .senderReceive => x.senderPid
  | .recipientSend | .recipientReceive => x.recipientPid

def secondPid (x : ChannelSemaphore) : ℤ := match x.role with
  | .senderSend | .senderReceive => x.recipientPid
  | .recipientSend | .recipientReceive => x.senderPid

def send (x : ChannelSemaphore) : Bool := match x.role with
  | .senderSend | .recipientSend => true
  | .senderReceive | .recipientReceive => false

/-- From `a` on the array goes on with digits up to a NUL, and they make the number another one. -/
def Continues (old : ℕ → UInt8) (a : ℕ) (pid : ℤ) : Prop :=
  pid ≠ 0 ∧ ∃ ds : List ℕ, ds ≠ [] ∧ (∀ d ∈ ds, d < 10) ∧ Placed old a (ds.map digit++[0]) ∧
    value 10 (numeral 10 pid.toNat++ds) < 2^31

/-- What the slot must hold where the name is copied to. -/
def Apart (x : ChannelSemaphore) (old : ℕ → UInt8) : Prop :=
  (x.senderPid = x.recipientPid → old x.name.length ≠ 0) ∧
    ¬ Continues old x.name.length x.secondPid

end ChannelSemaphore

/-- The test that the loop of `getMutex` makes of a slot. -/
def Kernel.Answers (k : Kernel) (mutex : ℤ) (name : List UInt8) : Prop :=
  strcmp (k.mutexes mutex).name name = 0 ∧ (k.mutexes mutex).creator.pid ≠ notUsed

/-! ### Names -/

section Names
variable {senderPid recipientPid senderPid' recipientPid' pid : ℤ} {send send' : Bool}
  {u v x y : List UInt8}

theorem toUInt64_pid (h : IsPid pid) : toUInt64 pid = pid.toNat := by
  obtain ⟨h0,hlt⟩ := h
  unfold toUInt64
  rw [Int.emod_eq_of_lt h0 (by omega)]

def pidText (pid : ℤ) : List UInt8 := (numeral 10 pid.toNat).map digit

theorem numeral_digits {n : ℕ} : ∀ d ∈ numeral 10 n, d < 10 := (numeral_standard (by decide)).lt

theorem digit_byte {d : ℕ} (hd : d < 10) : 48 ≤ (digit d).toNat ∧ (digit d).toNat ≤ 57 := by
  rw [digit_toNat (by omega),if_pos hd]
  omega

theorem not_mem_digits {ds : List ℕ} (hds : ∀ d ∈ ds, d < 10) {c : UInt8}
    (hc : c.toNat < 48 ∨ 57 < c.toNat) : c ∉ ds.map digit := by
  intro h
  obtain ⟨d,hd,rfl⟩ := List.mem_map.mp h
  have hb := digit_byte (hds d hd)
  omega

theorem not_mem_pidText {c : UInt8} (hc : c.toNat < 48 ∨ 57 < c.toNat) : c ∉ pidText pid :=
  not_mem_digits numeral_digits hc

theorem pidText_injective {pid' : ℤ} (h : IsPid pid) (h' : IsPid pid') (he : pidText pid = pidText pid') :
    pid = pid' := by
  have hle : (10 : ℕ) ≤ 36 := by decide
  unfold pidText at he
  rw [← uintToBase_numeral,← uintToBase_numeral] at he
  have hnat := uintToBase_injective (by decide) hle he
  have h0 := h.1
  have h0' := h'.1
  omega

def channelPrefix (send : Bool) : List UInt8 := if send then [99,104,83] else [99,104,82]

theorem generateChannelMutexName_eq (hs : IsPid senderPid) (hr : IsPid recipientPid) :
    generateChannelMutexName senderPid recipientPid send =
      channelPrefix send++pidText senderPid++59::pidText recipientPid := by
  unfold generateChannelMutexName pidText
  rw [toUInt64_pid hs,toUInt64_pid hr,uintToBase_numeral,uintToBase_numeral]
  have hflag : bytes (if send then "chS" else "chR") = channelPrefix send := by
    cases send <;> decide
  have hsep : bytes ";" = [59] := by decide
  rw [hflag,hsep,List.append_assoc _ [59],List.singleton_append]

theorem split_separator {c : UInt8} (hu : c ∉ u) (hv : c ∉ v) (h : u++c::x = v++c::y) :
    u = v ∧ x = y := by
  constructor
  · rw [← upTo_append (r := x) hu,h,upTo_append hv]
  · rw [← behind_append (r := x) hu,h,behind_append hv]

/-- What stands behind a name that begins another one stands behind its last number. -/
theorem generateChannelMutexName_append (hs : IsPid senderPid) (hr : IsPid recipientPid)
    (hs' : IsPid senderPid') (hr' : IsPid recipientPid')
    (h : generateChannelMutexName senderPid' recipientPid' send' =
      generateChannelMutexName senderPid recipientPid send++x) :
    senderPid' = senderPid ∧ send' = send ∧ pidText recipientPid' = pidText recipientPid++x := by
  rw [generateChannelMutexName_eq hs hr,generateChannelMutexName_eq hs' hr'] at h
  simp only [List.append_assoc,List.cons_append] at h
  have hlen : (channelPrefix send').length = (channelPrefix send).length := by
    cases send <;> cases send' <;> rfl
  obtain ⟨hflag,hrest⟩ := List.append_inj h hlen
  obtain ⟨hfirst,hsecond⟩ := split_separator (not_mem_pidText (by decide))
    (not_mem_pidText (by decide)) hrest
  refine ⟨pidText_injective hs' hs hfirst,?_,hsecond⟩
  cases send <;> cases send' <;> first | rfl | exact absurd hflag (by decide)

theorem generateChannelMutexName_injective (hs : IsPid senderPid) (hr : IsPid recipientPid)
    (hs' : IsPid senderPid') (hr' : IsPid recipientPid')
    (h : generateChannelMutexName senderPid recipientPid send =
      generateChannelMutexName senderPid' recipientPid' send') :
    senderPid = senderPid' ∧ recipientPid = recipientPid' ∧ send = send' := by
  rw [← List.append_nil (generateChannelMutexName senderPid' recipientPid' send')] at h
  obtain ⟨hsender,hsend,htext⟩ := generateChannelMutexName_append hs' hr' hs hr h
  rw [List.append_nil] at htext
  exact ⟨hsender,pidText_injective hr hr' htext,hsend⟩

theorem pidText_length (h : IsPid pid) : (pidText pid).length ≤ 10 := by
  obtain ⟨h0,hlt⟩ := h
  unfold pidText
  rw [List.length_map]
  exact numeral_length_le (by decide) (by decide) (by omega)

/-- Three characters of the prefix, the separator, and ten digits of each pid at most. -/
theorem generateChannelMutexName_length (hs : IsPid senderPid) (hr : IsPid recipientPid) :
    (generateChannelMutexName senderPid recipientPid send).length < maxName := by
  have hflag : (channelPrefix send).length = 3 := by cases send <;> rfl
  have hfirst := pidText_length hs
  have hsecond := pidText_length hr
  rw [generateChannelMutexName_eq hs hr,List.length_append,List.length_append,List.length_cons,hflag]
  change _ < 50
  omega

theorem generateChannelMutexName_nonzero (hs : IsPid senderPid) (hr : IsPid recipientPid) :
    0 ∉ generateChannelMutexName senderPid recipientPid send := by
  rw [generateChannelMutexName_eq hs hr]
  intro h
  obtain h | h := List.mem_append.mp h
  · obtain h | h := List.mem_append.mp h
    · cases send <;> exact absurd h (by decide)
    · exact not_mem_pidText (by decide) h
  · obtain h | h := List.mem_cons.mp h
    · exact absurd h (by decide)
    · exact not_mem_pidText (by decide) h

end Names

/-! ### What a name copied over an old one spells -/

section Copies
variable {old : ℕ → UInt8} {n m ext : List UInt8} {a : ℕ}

theorem placed_shift : Placed (fun i => old (i+1)) a m ↔ Placed old (a+1) m := by
  unfold Placed
  simp only [Nat.add_right_comm]

theorem spells_placed : Spells old m ↔ Placed old 0 (m++[0]) := by
  induction m generalizing old with
  | nil =>
    rw [List.nil_append,placed_cons,and_iff_left placed_nil]
    exact ⟨fun h => h 0 le_rfl,fun h i hi => by rw [Nat.le_zero.mp hi]; exact h⟩
  | cons c m ih => rw [spells_cons,ih,List.cons_append,placed_cons,placed_shift]

/-- The copy spells the name with what the array held behind it, up to the NUL there. -/
theorem spells_copy (hn : 0 ∉ n) : Spells (fun i => n.getD i (old i)) m ↔
    ∃ ext, m = n++ext ∧ Placed old n.length (ext++[0]) := by
  induction n generalizing old m with
  | nil =>
    have hsame : (fun i => ([] : List UInt8).getD i (old i)) = old := rfl
    rw [hsame,spells_placed]
    exact ⟨fun h => ⟨m,rfl,h⟩,fun ⟨ext,he,h⟩ => by rw [he]; exact h⟩
  | cons c n ih =>
    have hc : c ≠ 0 := fun he => hn (he ▸ List.mem_cons_self)
    cases m with
    | nil =>
      refine iff_of_false (fun h => hc (h 0 le_rfl)) ?_
      rintro ⟨ext,he,-⟩
      cases he
    | cons d m =>
      have hrest : Spells (fun i => (c::n).getD (i+1) (old (i+1))) m ↔ _ :=
        @ih (fun i => old (i+1)) m (fun h => hn (List.mem_cons_of_mem _ h))
      rw [spells_cons,hrest]
      simp only [placed_shift,List.length_cons,List.cons_append,List.cons.injEq]
      exact ⟨fun ⟨hd,ext,he,hp⟩ => ⟨ext,⟨hd.symm,he⟩,hp⟩,fun ⟨ext,⟨hd,he⟩,hp⟩ => ⟨hd.symm,ext,he,hp⟩⟩

end Copies

namespace ChannelSemaphore
variable {x y : ChannelSemaphore} {old : ℕ → UInt8}

theorem name_eq (x : ChannelSemaphore) :
    x.name = generateChannelMutexName x.firstPid x.secondPid x.send := by
  unfold name firstPid secondPid send
  cases x.role <;> rfl

theorem HasPids.order (h : x.HasPids) : IsPid x.firstPid ∧ IsPid x.secondPid := by
  unfold firstPid secondPid
  cases x.role <;> first | exact h | exact h.symm

theorem HasPids.name_nonzero (h : x.HasPids) : 0 ∉ x.name := by
  rw [name_eq]
  exact generateChannelMutexName_nonzero h.order.1 h.order.2

def twin (x : ChannelSemaphore) : ChannelSemaphore := { x with role := match x.role with
  | .senderSend => .recipientSend
  | .recipientSend => .senderSend
  | .senderReceive => .recipientReceive
  | .recipientReceive => .senderReceive }

theorem twin_name (h : x.senderPid = x.recipientPid) : x.twin.name = x.name := by
  obtain ⟨s,r,role⟩ := x
  obtain rfl : s = r := h
  cases role <;> rfl

theorem other_twin (x : ChannelSemaphore) : x.Other x.twin := by
  refine Or.inl ⟨rfl,rfl,?_⟩
  unfold twin
  cases x.role <;> exact ChannelSemaphoreRole.noConfusion

/-- Only in a channel of a process with itself another semaphore has the same name. -/
theorem Other.same_name (ho : x.Other y) (hx : x.HasPids) (hy : y.HasPids) (h : y.name = x.name) :
    x.senderPid = x.recipientPid := by
  rw [name_eq,name_eq] at h
  obtain ⟨hfirst,hsecond,hsend⟩ :=
    generateChannelMutexName_injective hy.order.1 hy.order.2 hx.order.1 hx.order.2 h
  obtain ⟨s,r,role⟩ := x
  obtain ⟨s',r',role'⟩ := y
  unfold Other at ho
  cases role <;> cases role' <;> simp only [firstPid,secondPid,send] at hfirst hsecond hsend ho ⊢ <;> grind

theorem pidText_longer {pid pid' : ℤ} {ext : List UInt8} (h : pidText pid' = pidText pid++ext) :
    ∃ ds, ext = ds.map digit ∧ (∀ d ∈ ds, d < 10) ∧ numeral 10 pid'.toNat = numeral 10 pid.toNat++ds := by
  have hlt : ∀ d ∈ numeral 10 pid'.toNat, d < 36 := numeral_lt (by decide) (by decide)
  obtain ⟨ds',ds,hds,hleft,hright⟩ := List.map_eq_append_iff.mp h
  have hsame : ds' = numeral 10 pid.toNat := by
    calc ds' = (ds'.map digit).map digitValue := (digits_values (fun d hd =>
          hlt d (hds ▸ List.mem_append_left _ hd))).symm
      _ = (pidText pid).map digitValue := by rw [hleft]
      _ = numeral 10 pid.toNat := digits_values (numeral_lt (by decide) (by decide))
  refine ⟨ds,hright.symm,fun d hd => numeral_digits d (hds ▸ List.mem_append_right _ hd),?_⟩
  rw [hds,hsame]

/-- A name that goes on behind another one has a longer number at its end. -/
theorem continues_of_longer {ext : List UInt8} (hx : x.HasPids) (hy : y.HasPids)
    (hold : old x.name.length ≠ 0) (he : y.name = x.name++ext)
    (hp : Placed old x.name.length (ext++[0])) : Continues old x.name.length x.secondPid := by
  rw [name_eq y,name_eq x] at he
  obtain ⟨-,-,htext⟩ :=
    generateChannelMutexName_append hx.order.1 hx.order.2 hy.order.1 hy.order.2 he
  obtain ⟨ds,rfl,hdigits,hds⟩ := pidText_longer htext
  have hne : ds ≠ [] := by
    rintro rfl
    exact hold (placed_cons.mp hp).1
  have hvalue : value 10 (numeral 10 x.secondPid.toNat++ds) = y.secondPid.toNat := by
    rw [← hds,value_numeral]
  refine ⟨fun h0 => ?_,ds,hne,hdigits,hp,?_⟩
  · -- nothing follows a leading zero
    rw [h0] at hds
    have hzero : numeral 10 y.secondPid.toNat = 0::ds := hds
    have hstandard : Standard 10 (numeral 10 y.secondPid.toNat) := numeral_standard (by decide)
    rw [hzero] at hstandard
    exact hne (List.cons.inj (hstandard.leading rfl)).2
  · have hlt := hy.order.2.2
    rw [hvalue]
    omega

theorem exists_longer (hx : x.HasPids) (h : Continues old x.name.length x.secondPid) :
    ∃ y : ChannelSemaphore, y.HasPids ∧ x.Other y ∧
      ∃ ext, y.name = x.name++ext ∧ Placed old x.name.length (ext++[0]) := by
  obtain ⟨hpid,ds,hne,hdigits,hp,hlt⟩ := h
  obtain ⟨hfirst,hsecond⟩ := hx.order
  have hstandard : Standard 10 (numeral 10 x.secondPid.toNat) := numeral_standard (by decide)
  have hzero : numeral 10 x.secondPid.toNat ≠ [0] := by
    intro h0
    have hvalue := value_numeral 10 x.secondPid.toNat
    rw [h0] at hvalue
    have hnat : x.secondPid.toNat = 0 := hvalue.symm
    have h0 := hsecond.1
    omega
  have hnumeral := (hstandard.append hdigits hzero).numeral_value (by decide)
  let longer : ℤ := value 10 (numeral 10 x.secondPid.toNat++ds)
  have htext : pidText longer = pidText x.secondPid++ds.map digit := by
    unfold pidText
    rw [Int.toNat_natCast,hnumeral,List.map_append]
  have hlonger : IsPid longer := ⟨Int.natCast_nonneg _,by omega⟩
  have hother : longer ≠ x.secondPid := by
    intro he
    rw [he] at htext
    exact hne (List.map_eq_nil_iff.mp (List.self_eq_append_right.mp htext))
  refine ⟨⟨x.firstPid,longer,if x.send then .senderSend else .senderReceive⟩,⟨hfirst,hlonger⟩,
    Or.inr ?_,ds.map digit,?_,hp⟩
  · dsimp only
    unfold firstPid secondPid at *
    cases hrole : x.role <;> simp only [hrole] at hother ⊢ <;> grind
  · have hname : name ⟨x.firstPid,longer,if x.send then .senderSend else .senderReceive⟩ =
        generateChannelMutexName x.firstPid longer x.send := by
      cases x.send <;> rfl
    rw [hname,name_eq,generateChannelMutexName_eq hfirst hlonger,
      generateChannelMutexName_eq hfirst hsecond,htext]
    simp only [List.append_assoc,List.cons_append]

/-- What the slot answers to once the name has been copied into it. -/
theorem answers_iff {k k' : Kernel} {mutex : ℤ} (hx : x.HasPids) (hy : y.HasPids)
    (hk : k.createMutex x.senderPid x.name 0 = (some mutex,k')) :
    k'.Answers mutex y.name ↔ ∃ ext, y.name = x.name++ext ∧
      Placed (k.mutexes mutex).name x.name.length (ext++[0]) := by
  obtain ⟨hx',-⟩ | ⟨hmutex,-,-,hm,-⟩ := Kernel.createMutex_cases hk
  · cases hx'
  obtain rfl := Option.some.inj hmutex
  have hused : x.senderPid ≠ notUsed := fun h => absurd hx.1.1 (by rw [h]; decide)
  unfold Kernel.Answers
  rw [hm,Function.update_self,strcmp_eq_zero hy.name_nonzero]
  exact (and_iff_left hused).trans (spells_copy hx.name_nonzero)

theorem not_continues (h : old x.name.length = 0) : ¬ Continues old x.name.length x.secondPid := by
  rintro ⟨-,ds,hne,hdigits,hp,-⟩
  obtain ⟨d,ds,rfl⟩ := List.exists_cons_of_ne_nil hne
  have hbyte := digit_byte (hdigits d List.mem_cons_self)
  have hzero : digit d = 0 := (placed_cons.mp hp).1.symm.trans h
  rw [hzero] at hbyte
  exact absurd hbyte.1 (by decide)

/-- The slot of a semaphore answers to the name of no other one. -/
theorem apart_iff {k k' : Kernel} {mutex : ℤ} (hx : x.HasPids)
    (hk : k.createMutex x.senderPid x.name 0 = (some mutex,k')) :
    (∀ y : ChannelSemaphore, y.HasPids → x.Other y → ¬ k'.Answers mutex y.name) ↔
      x.Apart (k.mutexes mutex).name := by
  constructor
  · refine fun h => ⟨fun hsame hzero => ?_,fun hc => ?_⟩
    · have hself : k'.Answers mutex x.name := (answers_iff hx hx hk).mpr
        ⟨[],(List.append_nil _).symm,placed_cons.mpr ⟨hzero,placed_nil⟩⟩
      refine h x.twin hx (other_twin x) ?_
      rw [twin_name hsame]
      exact hself
    · obtain ⟨y,hy,ho,hlonger⟩ := exists_longer hx hc
      exact h y hy ho ((answers_iff hx hy hk).mpr hlonger)
  · rintro ⟨hself,hc⟩ y hy ho ha
    obtain ⟨ext,he,hp⟩ := (answers_iff hx hy hk).mp ha
    by_cases hzero : (k.mutexes mutex).name x.name.length = 0
    · cases ext with
      | nil =>
        rw [List.append_nil] at he
        exact hself (ho.same_name hx hy he) hzero
      | cons c ext =>
        have hc0 : c = 0 := (placed_cons.mp hp).1.symm.trans hzero
        refine hy.name_nonzero ?_
        rw [he,hc0]
        exact List.mem_append_right _ List.mem_cons_self
    · exact hc (continues_of_longer hx hy hzero he hp)

end ChannelSemaphore

namespace CallerBuffer
variable {senderPid recipientPid : ℤ} {send : Bool} {b : CallerBuffer}

theorem uintToBase_pid {pid : ℤ} {n k : ℕ} {m : ℕ → UInt8} (h : IsPid pid)
    (hk : k+(pidText pid).length+1 ≤ n) : uintToBase ⟨n,m⟩ (toUInt64 pid) 10 k =
      some ((pidText pid).length,⟨n,place m k (pidText pid++[0])⟩) := by
  have htext : ComplexOS.uintToBase pid.toNat 10 = pidText pid := uintToBase_numeral
  have hlt : pid.toNat < 2^64 := by
    have hpid := h.2
    omega
  rw [← htext] at hk ⊢
  rw [toUInt64_pid h]
  exact uintToBase_eq (by decide) hlt hk

/-- The character behind a text is overwritten. -/
theorem update_place {m : ℕ → UInt8} {k : ℕ} {t : List UInt8} {c d : UInt8} :
    Function.update (place m k (t++[c])) (k+t.length) d = place m k (t++[d]) := by
  rw [place_append,place_append]
  exact Function.update_idem _ _ _

/-- The stores of a name stay inside an array of 50 and leave the name with its NUL. -/
theorem generateChannelMutexName_stores (hs : IsPid senderPid) (hr : IsPid recipientPid)
    (hb : maxName ≤ b.bound) : b.generateChannelMutexName senderPid recipientPid send =
      some ⟨b.bound,place b.bytes 0
        (ComplexOS.generateChannelMutexName senderPid recipientPid send++[0])⟩ := by
  have hlength : (ComplexOS.generateChannelMutexName senderPid recipientPid send).length < maxName :=
    generateChannelMutexName_length hs hr
  have hflag : (channelPrefix send).length = 3 := by cases send <;> rfl
  have hbytes : ComplexOS.bytes (if send then "chS" else "chR") = channelPrefix send := by
    cases send <;> decide
  rw [ComplexOS.generateChannelMutexName_eq hs hr] at hlength ⊢
  rw [List.length_append,List.length_append,List.length_cons,hflag] at hlength
  have hcopy : copyText 0 (channelPrefix send) b = some ⟨b.bound,place b.bytes 0 (channelPrefix send)⟩ :=
    copyText_eq (k := 0) (by omega)
  have hfirst : uintToBase ⟨b.bound,place b.bytes 0 (channelPrefix send)⟩ (toUInt64 senderPid) 10 3 = _ :=
    uintToBase_pid (k := 3) hs (by omega)
  have hsecond : uintToBase ⟨b.bound,place (place b.bytes 0 (channelPrefix send)) 3
      (pidText senderPid++[59])⟩ (toUInt64 recipientPid) 10 (3+(pidText senderPid).length+1 : ℕ) = _ :=
    uintToBase_pid hr (by omega)
  have hplace : (3 : ℤ)+(pidText senderPid).length = ((3+(pidText senderPid).length : ℕ) : ℤ) := rfl
  unfold generateChannelMutexName
  rw [hbytes,hcopy,Option.bind_some,hfirst,Option.bind_some]
  dsimp only
  rw [hplace,store_at (by change _ < b.bound; omega),Option.bind_some,update_place,← Nat.cast_succ,
    hsecond,Option.map_some]
  have hjoin : place b.bytes 0 (channelPrefix send++pidText senderPid++59::pidText recipientPid++[0]) =
      place (place (place b.bytes 0 (channelPrefix send)) 3 (pidText senderPid++[59]))
        (3+(pidText senderPid).length+1) (pidText recipientPid++[0]) := by
    have hsplit : channelPrefix send++pidText senderPid++59::pidText recipientPid++[0] =
        channelPrefix send++((pidText senderPid++[59])++(pidText recipientPid++[0])) := by
      simp only [List.append_assoc,List.cons_append,List.nil_append]
    rw [hsplit,place_append,place_append,hflag,List.length_append,List.length_singleton,Nat.zero_add,
      ← Nat.add_assoc]
  rw [hjoin]

end CallerBuffer

namespace ChannelSemaphore
variable {x : ChannelSemaphore} {k k' : Kernel} {mutex : ℤ}

/-- Names are unambiguous and short. The slot of the mutex that is created for a semaphore
answers to the name of no other semaphore exactly if the channel is not one of a process with
itself, where the copy has its NUL, and the old name does not make the last number a longer one. -/
theorem channelNames_unambiguous (hx : x.HasPids)
    (hk : k.createMutex x.senderPid x.name 0 = (some mutex,k')) :
    (∀ s r send s' r' send', IsPid s → IsPid r → IsPid s' → IsPid r' →
      generateChannelMutexName s r send = generateChannelMutexName s' r' send' →
        s = s' ∧ r = r' ∧ send = send') ∧
    (∀ s r send, IsPid s → IsPid r → (generateChannelMutexName s r send).length < maxName ∧
      ∀ b : CallerBuffer, maxName ≤ b.bound → b.generateChannelMutexName s r send =
        some ⟨b.bound,place b.bytes 0 (generateChannelMutexName s r send++[0])⟩) ∧
    ((∀ y : ChannelSemaphore, y.HasPids → x.Other y → ¬ k'.Answers mutex y.name) ↔
      x.Apart (k.mutexes mutex).name) :=
  ⟨fun _ _ _ _ _ _ hs hr hs' hr' h => generateChannelMutexName_injective hs hr hs' hr' h,
    fun _ _ _ hs hr => ⟨generateChannelMutexName_length hs hr,
      fun _ hb => CallerBuffer.generateChannelMutexName_stores hs hr hb⟩,apart_iff hx hk⟩

/-- The first mutex after the boot. -/
theorem first_creation (hx : x.HasPids) : ∃ s k', Registry.main Registry.static = .ok ((),s) ∧
    s.kernel.createMutex x.senderPid x.name 0 = (some 3,k') ∧
    (s.kernel.mutexes 3).name x.name.length = 0 := by
  obtain ⟨s,hs,hb⟩ := Registry.main_booted
  obtain ⟨r,k',hk⟩ : ∃ r k', s.kernel.createMutex x.senderPid x.name 0 = (r,k') := ⟨_,_,rfl⟩
  refine ⟨s,k',hs,?_,?_⟩
  · obtain ⟨-,hfull,-⟩ | ⟨hr,-⟩ := Kernel.createMutex_cases hk
    · refine absurd ⟨hb.usedMutexes.trans_lt (by decide),?_⟩ hfull
      rw [name_eq]
      exact generateChannelMutexName_length hx.order.1 hx.order.2
    · rw [hk,hr,hb.firstMutex]
  · have hcleared : ∀ i, Kernel.clearedMutex.name i = 0 := by
      intro i
      cases i <;> rfl
    rw [hb.mutexes 3 (by decide)]
    exact hcleared _

/-- The first semaphore of the channel between the processes 1 and 2. -/
theorem channelNames_unambiguous_first : ∃ s k', Registry.main Registry.static = .ok ((),s) ∧
    s.kernel.createMutex 1 (name ⟨1,2,.senderSend⟩) 0 = (some 3,k') ∧
    ∀ y : ChannelSemaphore, y.HasPids → Other ⟨1,2,.senderSend⟩ y → ¬ k'.Answers 3 y.name := by
  have hx : HasPids ⟨1,2,.senderSend⟩ := ⟨by decide,by decide⟩
  obtain ⟨s,k',hs,hk,hzero⟩ := first_creation hx
  refine ⟨s,k',hs,hk,(channelNames_unambiguous hx hk).2.2.mpr ⟨fun h => ?_,not_continues hzero⟩⟩
  exact absurd h (by decide)

/-- A channel of process 1 with itself: the second semaphore gets the mutex of the first. -/
theorem not_channelNames_unambiguous : ∃ s k', Registry.main Registry.static = .ok ((),s) ∧
    s.kernel.createMutex 1 (name ⟨1,1,.senderSend⟩) 0 = (some 3,k') ∧
    ¬ ∀ y : ChannelSemaphore, y.HasPids → Other ⟨1,1,.senderSend⟩ y → ¬ k'.Answers 3 y.name := by
  have hx : HasPids ⟨1,1,.senderSend⟩ := ⟨by decide,by decide⟩
  obtain ⟨s,k',hs,hk,hzero⟩ := first_creation hx
  exact ⟨s,k',hs,hk,fun h => ((apart_iff hx hk).mp h).1 rfl hzero⟩

end ChannelSemaphore
end ComplexOS
