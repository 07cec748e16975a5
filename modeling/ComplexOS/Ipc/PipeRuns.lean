import ComplexOS.Ipc.Pipe
import ComplexOS.Library.Census
import ComplexOS.Library.Fifo
import ComplexOS.Library.Runs

/-! # Runs over one pipe

Any number of threads call `writePipe` and `readPipe` and take their statements in
any order. The ghosts list the bytes stored and the bytes handed out, each in the
order of the critical sections.
-/
namespace ComplexOS
open Census

structure PipeRun where
  pipe : Pipe
  callers : List PipeCall
  stored : List UInt8
  taken : List UInt8

inductive PipeStep
  | call (thread : ThreadId) (writes : Bool) (memory : ℤ → UInt8) (bytes : ℤ)
  | round (i : ℕ)
  | leave (i : ℕ)
  | userMemory (i : ℕ) (memory : ℤ → UInt8)

/-- A caller's wait has returned but its byte has not been copied. -/
def PipeCall.claims (writes : Bool) (c : PipeCall) : Bool :=
  decide (c.writes = writes ∧ (c.phase = .permitted ∨ c.phase = .locked))

/-- A caller's byte is copied but its signal is still to come. -/
def PipeCall.owes (writes : Bool) (c : PipeCall) : Bool :=
  decide (c.writes = writes ∧ (c.phase = .copied ∨ c.phase = .advanced ∨ c.phase = .released))

def PipeCall.copied (writes : Bool) (c : PipeCall) : Bool :=
  decide (c.writes = writes ∧ c.phase = .copied)

def PipeCall.accesses (writes : Bool) (c : PipeCall) : Bool :=
  decide (c.writes = writes ∧ c.phase = .locked)

def PipeCall.Critical (c : PipeCall) : Prop :=
  c.phase = .locked ∨ c.phase = .copied ∨ c.phase = .advanced

namespace PipeRun
variable (s : PipeRun)

def start (buffer : ℕ → UInt8) : PipeRun := ⟨Pipe.createPipe buffer,[],[],[]⟩

def after (i : ℕ) (p : Pipe) (c c' : PipeCall) : PipeRun where
  pipe := p
  callers := s.callers.set i c'
  stored := if c.accesses true then s.stored++[c.memory c.i] else s.stored
  taken := if c.accesses false then s.taken++[c'.memory c.i] else s.taken

def step : PipeStep → Option PipeRun
  | .call thread writes memory bytes =>
    if thread ∈ s.callers.map PipeCall.thread then none
    else some { s with callers := s.callers++[⟨thread,writes,memory,0,bytes,.waiting⟩] }
  | .round i => s.callers[i]?.bind (fun c =>
    if c.phase = .waiting ∧ c.bytes = 0 then none
    else (s.pipe.round c).map (fun (p,c') => s.after i p c c'))
  | .leave i => s.callers[i]?.bind (fun c =>
    if c.phase = .waiting ∧ c.bytes = 0 then some { s with callers := s.callers.eraseIdx i }
    else none)
  | .userMemory i memory => s.callers[i]?.map (fun c =>
    { s with callers := s.callers.set i { c with memory := memory } })

/-- Every byte read is the byte stored in its place, at most 4096 bytes are unread,
and each unread byte still lies in its cell. -/
structure Law : Prop where
  isPrefix : s.taken <+: s.stored
  nonneg : s.taken.length ≤ s.stored.length
  bound : s.stored.length-s.taken.length ≤ pipeBufferLength
  kept : ∀ k b, s.taken.length ≤ k → s.stored[k]? = some b →
    s.pipe.buffer (k % (pipeBufferLength+1)) = b

structure Exclusive : Prop where
  threads : (s.callers.map PipeCall.thread).Nodup
  holder : ∀ c ∈ s.callers, c.Critical → s.pipe.mutex = some c.thread

structure Permits (unread : ℕ) : Prop where
  write : s.pipe.semWrite+s.callers.countP (PipeCall.claims true)+unread+
    s.callers.countP (PipeCall.owes false) = 4096
  read : s.pipe.semRead+s.callers.countP (PipeCall.claims false)+
    s.callers.countP (PipeCall.owes true) = unread

/-- An index is the number of bytes moved, less one while its byte is copied only. -/
def Index (index moved : ℕ) (writes : Bool) : Prop :=
  ∃ n, n+s.callers.countP (PipeCall.copied writes) = moved ∧ index = n % 4097

structure Ok (unread : List UInt8) : Prop where
  exclusive : s.Exclusive
  permits : s.Permits unread.length
  writeIndex : s.Index s.pipe.writeIndex s.stored.length true
  readIndex : s.Index s.pipe.readIndex s.taken.length false
  conserved : Fifo.Conserved s.stored s.taken unread
  holds : CircularBuffer.Holds s.pipe.buffer 4097 s.taken.length unread

end PipeRun

namespace Pipe
variable {p p' : Pipe} {c c' : PipeCall}

theorem Round.thread (h : Round p c p' c') : c'.thread = c.thread := by
  cases h <;> rfl

theorem Round.copied (h : Round p c p' c') (w : Bool) : c'.copied w = c.accesses w := by
  cases h <;> simp [PipeCall.copied,PipeCall.accesses, *]

theorem Round.mutex (h : Round p c p' c') :
    (p.mutex = none ∧ p'.mutex = some c.thread) ∨
      (¬ c'.Critical ∧ p'.mutex = if p.mutex = some c.thread then none else p.mutex) ∨
      ((c'.Critical → c.Critical) ∧ p'.mutex = p.mutex) := by
  cases h with
  | down hph hm => exact Or.inl ⟨hm,rfl⟩
  | up hph => exact Or.inr (Or.inl ⟨by simp [PipeCall.Critical],rfl⟩)
  | _ => exact Or.inr (Or.inr ⟨by simp [PipeCall.Critical, *],rfl⟩)

/-- A statement moves a permit of `semWrite`, and a byte, from one place to another. -/
theorem Round.writePermits (h : Round p c p' c') :
    p'.semWrite+(c'.claims true).toNat+(c'.owes false).toNat+(c.accesses true).toNat =
      p.semWrite+(c.claims true).toNat+(c.owes false).toNat+(c.accesses false).toNat := by
  cases hw : c.writes <;> cases h <;>
    simp_all [PipeCall.claims,PipeCall.owes,PipeCall.accesses]
  omega

theorem Round.readPermits (h : Round p c p' c') :
    p'.semRead+(c'.claims false).toNat+(c'.owes true).toNat+(c.accesses false).toNat =
      p.semRead+(c.claims false).toNat+(c.owes true).toNat+(c.accesses true).toNat := by
  cases hw : c.writes <;> cases h <;>
    simp_all [PipeCall.claims,PipeCall.owes,PipeCall.accesses]
  omega

theorem Round.writeIndex (h : Round p c p' c') : p'.writeIndex =
    if c.copied true then CircularBuffer.advance 4096 p.writeIndex else p.writeIndex := by
  cases h <;> simp [PipeCall.copied, *]

theorem Round.readIndex (h : Round p c p' c') : p'.readIndex =
    if c.copied false then CircularBuffer.advance 4096 p.readIndex else p.readIndex := by
  cases h <;> simp [PipeCall.copied, *]

end Pipe
namespace PipeRun
open Pipe
variable {s : PipeRun} {i j n : ℕ} {p' : Pipe} {c c' d : PipeCall} {unread : List UInt8}

theorem Exclusive.thread_ne (h : s.Exclusive) (hi : s.callers[i]? = some c)
    (hj : s.callers[j]? = some d) (hij : j ≠ i) : d.thread ≠ c.thread := by
  intro he
  have hi' : (s.callers.map PipeCall.thread)[i]? = some c.thread := by
    rw [List.getElem?_map,hi,Option.map_some]
  have hj' : (s.callers.map PipeCall.thread)[j]? = some d.thread := by
    rw [List.getElem?_map,hj,Option.map_some]
  obtain ⟨hlt,-⟩ := List.getElem?_eq_some_iff.mp hj'
  exact hij ((List.getElem?_inj hlt h.threads).mp (by rw [hj',hi',he]))

/-- While one caller is in its critical section no other is. -/
theorem Exclusive.alone (h : s.Exclusive) (hi : s.callers[i]? = some c) (hc : c.Critical)
    (hd : d ∈ s.callers) (hd' : d.Critical) : d = c := by
  obtain ⟨j,hj⟩ := List.mem_iff_getElem?.mp hd
  by_cases hij : j = i
  · subst hij
    exact Option.some.inj (hj.symm.trans hi)
  · have hm := h.holder d hd hd'
    rw [h.holder c (List.mem_of_getElem? hi) hc,Option.some.injEq] at hm
    exact absurd hm.symm (h.thread_ne hi hj hij)

theorem map_set_same {f : PipeCall → ThreadId} (hi : s.callers[i]? = some c)
    (hf : f c' = f c) : (s.callers.set i c').map f = s.callers.map f := by
  obtain ⟨hlt,rfl⟩ := List.getElem?_eq_some_iff.mp hi
  rw [List.map_set,hf,← List.getElem_map f (h := by simpa using hlt),List.set_getElem_self]

theorem mem_set (h : d ∈ s.callers.set i c') :
    d = c' ∨ ∃ j, j ≠ i ∧ s.callers[j]? = some d := by
  obtain ⟨j,hj⟩ := List.mem_iff_getElem?.mp h
  by_cases hij : j = i
  · subst hij
    rw [List.getElem?_set_self'] at hj
    obtain ⟨-,-,rfl⟩ := Option.map_eq_some_iff.mp hj
    exact Or.inl rfl
  · rw [List.getElem?_set_ne (Ne.symm hij)] at hj
    exact Or.inr ⟨j,hij,hj⟩

theorem Exclusive.after (h : s.Exclusive) (hi : s.callers[i]? = some c)
    (hr : Round s.pipe c p' c') : (s.after i p' c c').Exclusive := by
  refine ⟨?_,fun d hd hcrit => ?_⟩
  · rw [PipeRun.after,map_set_same hi hr.thread]
    exact h.threads
  · change p'.mutex = some d.thread
    have hc : c ∈ s.callers := List.mem_of_getElem? hi
    rcases mem_set hd with rfl | ⟨j,hij,hj⟩
    · rw [hr.thread]
      rcases hr.mutex with ⟨-,hm⟩ | ⟨hn,-⟩ | ⟨hk,hm⟩
      · exact hm
      · exact absurd hcrit hn
      · rw [hm]
        exact h.holder c hc (hk hcrit)
    · have hd := h.holder d (List.mem_of_getElem? hj) hcrit
      rcases hr.mutex with ⟨hm,-⟩ | ⟨-,hm⟩ | ⟨-,hm⟩
      · rw [hm] at hd
        cases hd
      · rw [hm,if_neg,hd]
        rw [hd,Option.some.injEq]
        exact h.thread_ne hi hj hij
      · rw [hm,hd]

theorem Permits.after (h : s.Permits n) (hi : s.callers[i]? = some c)
    (hr : Round s.pipe c p' c') {n' : ℕ}
    (hn : n'+(c.accesses false).toNat = n+(c.accesses true).toNat) :
    (s.after i p' c c').Permits n' := by
  have hclaims := fun w => count_set (p := PipeCall.claims w) (b := c') hi
  have howes := fun w => count_set (p := PipeCall.owes w) (b := c') hi
  have hw := hr.writePermits
  have hrd := hr.readPermits
  obtain ⟨h1,h2⟩ := h
  refine ⟨?_,?_⟩
  · have h3 := hclaims true
    have h4 := howes false
    simp only [PipeRun.after]
    omega
  · have h3 := hclaims false
    have h4 := howes true
    simp only [PipeRun.after]
    omega

/-- An index moves on after its byte was copied. -/
theorem Index.after {index index' moved : ℕ} {w : Bool} (h : s.Index index moved w)
    (hi : s.callers[i]? = some c) (hr : Round s.pipe c p' c')
    (hx : index' = if c.copied w then CircularBuffer.advance 4096 index else index) :
    (s.after i p' c c').Index index' (moved+(c.accesses w).toNat) w := by
  obtain ⟨n,hn,rfl⟩ := h
  have hcount := count_set (p := PipeCall.copied w) (b := c') hi
  rw [hr.copied] at hcount
  by_cases hc : c.copied w = true
  · have ha : c.accesses w = false := by
      simp only [PipeCall.copied,decide_eq_true_eq] at hc
      simp [PipeCall.accesses,hc.2]
    refine ⟨n+1,?_,?_⟩
    · rw [hc,ha] at hcount
      simp only [PipeRun.after,ha]
      simp only [Bool.toNat_true,Bool.toNat_false] at hcount ⊢
      omega
    · rw [hx,if_pos hc]
      exact CircularBuffer.advance_mod 4096 n
  · refine ⟨n,?_,by rw [hx,if_neg hc]⟩
    rw [Bool.not_eq_true] at hc
    rw [hc] at hcount
    simp only [PipeRun.after]
    simp only [Bool.toNat_false] at hcount
    omega

/-- While a caller is about to copy, no other has a copied byte, so that both indices
are the numbers of bytes moved. -/
theorem Index.exact {index moved : ℕ} {w : Bool} (h : s.Index index moved w)
    (he : s.Exclusive) (hi : s.callers[i]? = some c) (hph : c.phase = .locked) :
    index = moved % 4097 := by
  obtain ⟨n,hn,rfl⟩ := h
  have hzero : s.callers.countP (PipeCall.copied w) = 0 := by
    refine List.countP_eq_zero.mpr (fun d hd hcopied => ?_)
    simp only [PipeCall.copied,decide_eq_true_eq] at hcopied
    have hdc := he.alone hi (Or.inl hph) hd (Or.inr (Or.inl hcopied.2))
    rw [hdc,hph] at hcopied
    cases hcopied.2
  rw [← hn,hzero,Nat.add_zero]

theorem Ok.room (hs : s.Ok unread) (hi : s.callers[i]? = some c) (hc : c.claims true = true) :
    unread.length < 4096 := by
  have hpos := List.countP_pos_iff.mpr ⟨c,List.mem_of_getElem? hi,hc⟩
  have := hs.permits.write
  omega

theorem Ok.byte (hs : s.Ok unread) (hi : s.callers[i]? = some c) (hc : c.claims false = true) :
    0 < unread.length := by
  have hpos := List.countP_pos_iff.mpr ⟨c,List.mem_of_getElem? hi,hc⟩
  have := hs.permits.read
  omega

theorem after_stored : (s.after i p' c c').stored =
    if c.accesses true then s.stored++[c.memory c.i] else s.stored := rfl

theorem after_taken : (s.after i p' c c').taken =
    if c.accesses false then s.taken++[c'.memory c.i] else s.taken := rfl

theorem length_stored : (s.after i p' c c').stored.length =
    s.stored.length+(c.accesses true).toNat := by
  rw [after_stored]
  cases c.accesses true <;> simp

theorem length_taken : (s.after i p' c c').taken.length =
    s.taken.length+(c.accesses false).toNat := by
  rw [after_taken]
  cases c.accesses false <;> simp

/-- What is left to show of a statement is about the bytes only. -/
theorem Ok.after (hs : s.Ok unread) (hi : s.callers[i]? = some c) (hr : Round s.pipe c p' c')
    {unread' : List UInt8}
    (hc : Fifo.Conserved (s.after i p' c c').stored (s.after i p' c c').taken unread')
    (hb : CircularBuffer.Holds p'.buffer 4097 (s.after i p' c c').taken.length unread') :
    (s.after i p' c c').Ok unread' := by
  refine ⟨hs.exclusive.after hi hr,hs.permits.after hi hr ?_,?_,?_,hc,hb⟩
  · have h1 := hc.length
    have h2 := hs.conserved.length
    rw [length_stored,length_taken] at h1
    omega
  · rw [length_stored]
    exact hs.writeIndex.after hi hr hr.writeIndex
  · rw [length_taken]
    exact hs.readIndex.after hi hr hr.readIndex

theorem Ok.store (hs : s.Ok unread) (hi : s.callers[i]? = some c)
    (hr : Round s.pipe c p' c') (hw : c.writes = true) (hph : c.phase = .locked)
    (hp : p'.buffer = Function.update s.pipe.buffer s.pipe.writeIndex (c.memory c.i)) :
    (s.after i p' c c').Ok (unread++[c.memory c.i]) := by
  have hroom := hs.room hi (by simp [PipeCall.claims,hw,hph])
  have hstored : (s.after i p' c c').stored = s.stored++[c.memory c.i] := by
    rw [after_stored,if_pos (by simp [PipeCall.accesses,hw,hph])]
  have htaken : (s.after i p' c c').taken = s.taken := by
    rw [after_taken,if_neg (by simp [PipeCall.accesses,hw])]
  have hx := hs.writeIndex.exact hs.exclusive hi hph
  rw [hs.conserved.length] at hx
  refine hs.after hi hr ?_ ?_
  · rw [hstored,htaken]
    exact hs.conserved.put
  · rw [htaken,hp,hx]
    exact hs.holds.put (hroom.trans (Nat.lt_succ_self 4096))

theorem Ok.take {b : UInt8} {rest : List UInt8} (hs : s.Ok (b::rest))
    (hi : s.callers[i]? = some c) (hr : Round s.pipe c p' c') (hw : c.writes = false)
    (hph : c.phase = .locked) (hp : p'.buffer = s.pipe.buffer)
    (hc : c'.memory c.i = s.pipe.buffer s.pipe.readIndex) : (s.after i p' c c').Ok rest := by
  have hb : c'.memory c.i = b := by
    rw [hc,hs.readIndex.exact hs.exclusive hi hph]
    exact hs.holds.front
  have hstored : (s.after i p' c c').stored = s.stored := by
    rw [after_stored,if_neg (by simp [PipeCall.accesses,hw])]
  have htaken : (s.after i p' c c').taken = s.taken++[b] := by
    rw [after_taken,if_pos (by simp [PipeCall.accesses,hw,hph]),hb]
  refine hs.after hi hr ?_ ?_
  · rw [hstored,htaken]
    exact hs.conserved.take
  · rw [htaken,List.length_append,hp]
    exact hs.holds.take

theorem Ok.keep (hs : s.Ok unread) (hi : s.callers[i]? = some c) (hr : Round s.pipe c p' c')
    (hph : c.phase ≠ .locked) (hp : p'.buffer = s.pipe.buffer) :
    (s.after i p' c c').Ok unread := by
  have hstored : (s.after i p' c c').stored = s.stored := by
    rw [after_stored,if_neg (by simp [PipeCall.accesses,hph])]
  have htaken : (s.after i p' c c').taken = s.taken := by
    rw [after_taken,if_neg (by simp [PipeCall.accesses,hph])]
  refine hs.after hi hr ?_ ?_
  · rw [hstored,htaken]
    exact hs.conserved
  · rw [htaken,hp]
    exact hs.holds

theorem Ok.round (hs : s.Ok unread) (hi : s.callers[i]? = some c)
    (hr : Round s.pipe c p' c') : ∃ unread', (s.after i p' c c').Ok unread' := by
  have hr' := hr
  cases hr with
  | store hw hph i => exact ⟨_,hs.store hi hr' hw hph rfl⟩
  | take hw hph i =>
    cases unread with
    | nil => exact absurd (hs.byte hi (by simp [PipeCall.claims,hw,hph])) (Nat.lt_irrefl 0)
    | cons b rest =>
      exact ⟨rest,hs.take hi hr' hw hph rfl (Function.update_self _ _ _)⟩
  | down hph | up hph => exact ⟨unread,hs.keep hi hr' (by simp [hph]) rfl⟩
  | _ hw hph => exact ⟨unread,hs.keep hi hr' (by simp [hph]) rfl⟩

/-- Callers between two rounds, and what lies at their arguments, play no part. -/
theorem Ok.callers (hs : s.Ok unread) {callers : List PipeCall}
    (ht : (callers.map PipeCall.thread).Nodup)
    (hc : ∀ d ∈ callers, d.Critical → ∃ e ∈ s.callers, e.Critical ∧ e.thread = d.thread)
    (hclaims : ∀ w, callers.countP (PipeCall.claims w) = s.callers.countP (PipeCall.claims w))
    (howes : ∀ w, callers.countP (PipeCall.owes w) = s.callers.countP (PipeCall.owes w))
    (hcopied : ∀ w, callers.countP (PipeCall.copied w) = s.callers.countP (PipeCall.copied w)) :
    Ok { s with callers := callers } unread := by
  obtain ⟨he,hp,hw,hr,hconserved,hholds⟩ := hs
  refine ⟨⟨ht,fun d hd hcrit => ?_⟩,⟨?_,?_⟩,?_,?_,hconserved,hholds⟩
  · obtain ⟨e,hmem,hecrit,hthread⟩ := hc d hd hcrit
    exact (he.holder e hmem hecrit).trans (congrArg some hthread)
  · simpa only [hclaims,howes] using hp.write
  · simpa only [hclaims,howes] using hp.read
  · simpa only [Index,hcopied] using hw
  · simpa only [Index,hcopied] using hr

theorem Ok.call (hs : s.Ok unread) {d : PipeCall} (hd : d.thread ∉ s.callers.map PipeCall.thread)
    (hph : d.phase = .waiting) : Ok { s with callers := s.callers++[d] } unread := by
  refine hs.callers ?_ ?_ (fun w => ?_) (fun w => ?_) (fun w => ?_)
  · rw [List.map_append]
    refine List.Nodup.append hs.exclusive.threads (List.nodup_singleton _) ?_
    simpa using hd
  · intro e he hcrit
    rcases List.mem_append.mp he with he | he
    · exact ⟨e,he,hcrit,rfl⟩
    · rw [List.mem_singleton] at he
      simp [he,PipeCall.Critical,hph] at hcrit
  · rw [count_join]
    simp [PipeCall.claims,hph]
  · rw [count_join]
    simp [PipeCall.owes,hph]
  · rw [count_join]
    simp [PipeCall.copied,hph]

theorem Ok.leave (hs : s.Ok unread) (hi : s.callers[i]? = some c) (hph : c.phase = .waiting) :
    Ok { s with callers := s.callers.eraseIdx i } unread := by
  refine hs.callers ?_ ?_ (fun w => ?_) (fun w => ?_) (fun w => ?_)
  · exact hs.exclusive.threads.sublist ((List.eraseIdx_sublist _ _).map _)
  · exact fun d hd hcrit => ⟨d,(List.eraseIdx_sublist _ _).subset hd,hcrit,rfl⟩
  · simpa [PipeCall.claims,hph] using count_leave (p := PipeCall.claims w) hi
  · simpa [PipeCall.owes,hph] using count_leave (p := PipeCall.owes w) hi
  · simpa [PipeCall.copied,hph] using count_leave (p := PipeCall.copied w) hi

theorem Ok.userMemory (hs : s.Ok unread) (hi : s.callers[i]? = some c) (memory : ℤ → UInt8) :
    Ok { s with callers := s.callers.set i { c with memory := memory } } unread := by
  have ht : (s.callers.set i { c with memory := memory }).map PipeCall.thread =
      s.callers.map PipeCall.thread := map_set_same hi rfl
  refine hs.callers (ht ▸ hs.exclusive.threads) ?_ (fun w => ?_) (fun w => ?_) (fun w => ?_)
  · intro d hd hcrit
    rcases mem_set hd with rfl | ⟨j,-,hj⟩
    · exact ⟨c,List.mem_of_getElem? hi,hcrit,rfl⟩
    · exact ⟨d,List.mem_of_getElem? hj,hcrit,rfl⟩
  · exact count_set_same hi rfl
  · exact count_set_same hi rfl
  · exact count_set_same hi rfl

theorem step_call {s' : PipeRun} {thread : ThreadId} {writes : Bool} {memory : ℤ → UInt8}
    {bytes : ℤ} : s.step (.call thread writes memory bytes) = some s' ↔
      thread ∉ s.callers.map PipeCall.thread ∧
        { s with callers := s.callers++[⟨thread,writes,memory,0,bytes,.waiting⟩] } = s' := by
  rw [step,Option.ite_none_left_eq_some,Option.some.injEq]

theorem step_round {s' : PipeRun} : s.step (.round i) = some s' ↔
    ∃ c, s.callers[i]? = some c ∧ ¬ (c.phase = .waiting ∧ c.bytes = 0) ∧
      ∃ p' c', s.pipe.round c = some (p',c') ∧ s.after i p' c c' = s' := by
  simp only [step,Option.bind_eq_some_iff,Option.ite_none_left_eq_some,Option.map_eq_some_iff,
    Prod.exists]

theorem step_leave {s' : PipeRun} : s.step (.leave i) = some s' ↔
    ∃ c, s.callers[i]? = some c ∧ (c.phase = .waiting ∧ c.bytes = 0) ∧
      { s with callers := s.callers.eraseIdx i } = s' := by
  simp only [step,Option.bind_eq_some_iff,Option.ite_none_right_eq_some,Option.some.injEq]

theorem step_userMemory {s' : PipeRun} {memory : ℤ → UInt8} :
    s.step (.userMemory i memory) = some s' ↔ ∃ c, s.callers[i]? = some c ∧
      { s with callers := s.callers.set i { c with memory := memory } } = s' := by
  rw [step,Option.map_eq_some_iff]

theorem step_ok {l : PipeStep} {s' : PipeRun} (hs : ∃ unread, s.Ok unread)
    (h : s.step l = some s') : ∃ unread, s'.Ok unread := by
  obtain ⟨unread,hs⟩ := hs
  cases l with
  | call thread writes memory bytes =>
    obtain ⟨hmem,rfl⟩ := step_call.mp h
    exact ⟨unread,hs.call hmem rfl⟩
  | round i =>
    obtain ⟨c,hi,-,p',c',hr,rfl⟩ := step_round.mp h
    exact hs.round hi (round_cases hr)
  | leave i =>
    obtain ⟨c,hi,hph,rfl⟩ := step_leave.mp h
    exact ⟨unread,hs.leave hi hph.1⟩
  | userMemory i memory =>
    obtain ⟨c,hi,rfl⟩ := step_userMemory.mp h
    exact ⟨unread,hs.userMemory hi memory⟩

theorem start_ok (buffer : ℕ → UInt8) : (start buffer).Ok [] :=
  ⟨⟨List.nodup_nil,by simp [start]⟩,⟨by simp [start,createPipe],by simp [start,createPipe]⟩,
    ⟨0,rfl,rfl⟩,⟨0,rfl,rfl⟩,Fifo.conserved_nil,CircularBuffer.holds_nil⟩

theorem Ok.law (hs : s.Ok unread) : s.Law := by
  have hlen := hs.conserved.length
  have hbound := hs.permits.write
  refine ⟨hs.conserved.isPrefix,by omega,by rw [pipeBufferLength_eq]; omega,?_⟩
  intro k b hk hb
  obtain ⟨j,rfl⟩ := Nat.exists_eq_add_of_le hk
  rw [hs.conserved,List.getElem?_append_right hk,Nat.add_sub_cancel_left] at hb
  exact hs.holds j b hb

/-- In every state of every run over a fresh pipe the bytes read are a prefix of the
bytes written, and what is unread fits the buffer and is still there. -/
theorem pipe_fifo {buffer : ℕ → UInt8} {ls : List PipeStep} {s : PipeRun}
    (h : Runs.run step (start buffer) ls = some s) : s.Law := by
  obtain ⟨unread,hs⟩ := Runs.invariant (I := fun s => ∃ unread, s.Ok unread)
    (fun _ _ _ hs h => step_ok hs h) ⟨[],start_ok buffer⟩ h
  exact hs.law

/-- Two writers in turns, and a reader that has not taken the last byte yet. -/
def turns : List PipeStep :=
  [.call ⟨1,0⟩ true (fun i => if i = 0 then 7 else 8) 2,.call ⟨2,0⟩ true (fun _ => 9) 1,
    .call ⟨3,0⟩ false (fun _ => 0) 3]++List.replicate 6 (.round 0)++List.replicate 6 (.round 1)++
    List.replicate 6 (.round 2)++List.replicate 6 (.round 0)++List.replicate 6 (.round 2)

theorem pipe_fifo_turns : ∃ s, Runs.run step (start (fun _ => 0)) turns = some s ∧
    s.stored = [7,9,8] ∧ s.taken = [7,9] ∧ s.Law := by
  have h : ∃ s, Runs.run step (start (fun _ => 0)) turns = some s ∧ s.stored = [7,9,8] ∧
      s.taken = [7,9] := ⟨_,rfl,rfl,rfl⟩
  obtain ⟨s,hr,hs,ht⟩ := h
  exact ⟨s,hr,hs,ht,pipe_fifo hr⟩

end PipeRun
end ComplexOS
