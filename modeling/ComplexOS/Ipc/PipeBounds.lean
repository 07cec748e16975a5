import ComplexOS.Ipc.PipeRuns

/-! # The accesses to a pipe's buffer

Both indices go through `PIPE_BUFFER_LENGTH` itself before they wrap, so the last of
the 4097 cells in use lies behind the page. It is reached by the 4097th byte stored,
and by no byte before that.
-/
namespace ComplexOS.PipeRun
open Pipe
variable {s s' : PipeRun} {l : PipeStep} {i : ℕ} {c : PipeCall}

def index (s : PipeRun) (c : PipeCall) : ℕ :=
  if c.writes then s.pipe.writeIndex else s.pipe.readIndex

def InBlock (s : PipeRun) (l : PipeStep) : Prop :=
  ∀ i c, l = .round i → s.callers[i]? = some c → c.phase = .locked →
    s.index c < pipePages*BuddyAllocator.pageSize

def FirstLap (s : PipeRun) (l : PipeStep) : Prop :=
  ∀ i c, l = .round i → s.callers[i]? = some c → c.accesses true = true →
    s.stored.length < pipePages*BuddyAllocator.pageSize

@[simp] theorem block_eq : pipePages*BuddyAllocator.pageSize = 4096 := rfl

/-- Before the first lap is over, the index of an access is the number of bytes moved. -/
theorem Ok.index_lt {unread : List UInt8} (hs : s.Ok unread) (hb : s.stored.length ≤ 4096)
    (hi : s.callers[i]? = some c) (hph : c.phase = .locked)
    (hstore : c.writes = true → s.stored.length < 4096) : s.index c < 4096 := by
  have hlen := hs.conserved.length
  cases hw : c.writes with
  | true =>
    have hx := hs.writeIndex.exact hs.exclusive hi hph
    have hlt := hstore hw
    simp only [index,hw,if_true]
    omega
  | false =>
    have hx := hs.readIndex.exact hs.exclusive hi hph
    have hbyte := hs.byte hi (by simp [PipeCall.claims,hw,hph])
    simp only [index,hw,Bool.false_eq_true,if_false]
    omega

theorem Ok.inBlock_iff {unread : List UInt8} (hs : s.Ok unread) (hb : s.stored.length ≤ 4096)
    (l : PipeStep) : s.InBlock l ↔ s.FirstLap l := by
  constructor
  · intro h i c hl hi ha
    have ha' := ha
    simp only [PipeCall.accesses,decide_eq_true_eq] at ha
    have hx := hs.writeIndex.exact hs.exclusive hi ha.2
    have hlt := h i c hl hi ha.2
    simp only [index,ha.1,if_true] at hlt
    rw [block_eq] at hlt ⊢
    omega
  · intro h i c hl hi hph
    rw [block_eq]
    apply hs.index_lt hb hi hph
    intro hw
    exact h i c hl hi (by simp [PipeCall.accesses,hw,hph])

theorem step_firstLap (hb : s.stored.length ≤ 4096) (hl : s.FirstLap l)
    (h : s.step l = some s') : s'.stored.length ≤ 4096 := by
  cases l with
  | round i =>
    obtain ⟨c,hi,-,p',c',-,rfl⟩ := step_round.mp h
    rw [length_stored]
    cases ha : c.accesses true with
    | true =>
      have hlt := hl i c rfl hi ha
      rw [block_eq] at hlt
      simp only [Bool.toNat_true]
      omega
    | false => simpa using hb
  | call thread writes memory bytes =>
    obtain ⟨-,rfl⟩ := step_call.mp h
    exact hb
  | leave i =>
    obtain ⟨c,-,-,rfl⟩ := step_leave.mp h
    exact hb
  | userMemory i memory =>
    obtain ⟨c,-,rfl⟩ := step_userMemory.mp h
    exact hb

/-- Along every run over a fresh pipe, by any threads in any order, all accesses stay in
the page exactly if each byte is stored while fewer than 4096 have been. -/
theorem pipe_in_block (buffer : ℕ → UInt8) (ls : List PipeStep) :
    Runs.Along step InBlock (start buffer) ls ↔ Runs.Along step FirstLap (start buffer) ls := by
  apply Runs.along_iff (I := fun s => (∃ unread, s.Ok unread) ∧ s.stored.length ≤ 4096)
    (V := fun _ => True)
  · rintro s l ⟨⟨unread,hs⟩,hb⟩ -
    exact hs.inBlock_iff hb l
  · rintro s l t ⟨hs,hb⟩ - hl ht
    exact ⟨step_ok hs ht,step_firstLap hb hl ht⟩
  · exact ⟨⟨[],start_ok buffer⟩,Nat.zero_le _⟩
  · exact fun _ _ => trivial

/-! ### The byte that goes behind the page -/

/-- One whole round of the first caller, a writer, with nobody in its way. -/
theorem write_round {t : ThreadId} {m : ℤ → UInt8} {k bytes k' bytes' : ℤ}
    {cs : List PipeCall} {stored taken : List UInt8} {r w sw sr : ℕ} {buffer : ℕ → UInt8}
    (hbytes : bytes ≠ 0) (hsem : sw ≠ 0) (hw : w ≠ pipeBufferLength)
    (hi : increment k = some k') (hd : decrement bytes = some bytes') :
    Runs.run step ⟨⟨r,w,buffer,sw,sr,none⟩,⟨t,true,m,k,bytes,.waiting⟩::cs,stored,taken⟩
      (List.replicate 6 (.round 0)) =
        some ⟨⟨r,w+1,Function.update buffer w (m k),sw-1,sr+1,none⟩,
          ⟨t,true,m,k',bytes',.waiting⟩::cs,stored++[m k],taken⟩ := by
  simp only [List.replicate,Runs.run,step]
  simp [-pipeBufferLength_eq,Pipe.round,writePipe,mutexDown,mutexUp,after,PipeCall.accesses,hbytes,
    hsem,hw,hi,hd]

def filled (n : ℕ) (buffer : ℕ → UInt8) (stored : List UInt8) : PipeRun where
  pipe := ⟨0,n,buffer,4096-n,n,none⟩
  callers := [⟨⟨1,0⟩,true,fun _ => 7,n,4097-n,.waiting⟩,⟨⟨2,0⟩,false,fun _ => 0,0,1,.waiting⟩]
  stored := stored
  taken := []

theorem filled_byte {n : ℕ} (hn : n < 4096) (buffer : ℕ → UInt8) (stored : List UInt8) :
    Runs.run step (filled n buffer stored) (List.replicate 6 (.round 0)) =
      some (filled (n+1) (Function.update buffer n 7) (stored++[7])) := by
  have hi : increment (n:ℤ) = some ((n+1:ℕ):ℤ) := if_pos (by simp only [maxInt]; omega)
  have hd : decrement ((4097:ℤ)-n) = some ((4097:ℤ)-(n+1:ℕ)) := by
    have hlast : (4097:ℤ)-(n+1:ℕ) = 4097-n-1 := by omega
    rw [hlast]
    exact if_pos (by simp only [maxInt]; omega)
  have hsem : 4096-(n+1) = 4096-n-1 := by omega
  unfold filled
  rw [hsem]
  apply write_round _ _ _ hi hd
  · omega
  · omega
  · rw [pipeBufferLength_eq]
    omega

theorem filled_bytes (buffer : ℕ → UInt8) {n : ℕ} (hn : n ≤ 4096) :
    ∃ ls buffer' stored', Runs.run step (filled 0 buffer []) ls =
      some (filled n buffer' stored') := by
  induction n with
  | zero => exact ⟨[],buffer,[],rfl⟩
  | succ n ih =>
    obtain ⟨ls,b,st,hr⟩ := ih (by omega)
    have hr' := filled_byte (n := n) (by omega) b st
    exact ⟨ls++List.replicate 6 (.round 0),_,_,Runs.run_append.mpr ⟨_,hr,hr'⟩⟩

/-- A page of bytes is written, one is read, and the next byte goes behind the page. -/
theorem filled_page (buffer : ℕ → UInt8) (stored : List UInt8) :
    ∃ s c, Runs.run step (filled 4096 buffer stored)
        (List.replicate 6 (.round 1)++List.replicate 2 (.round 0)) = some s ∧
      s.callers[0]? = some c ∧ c.phase = .locked ∧ s.index c = 4096 ∧
      (s.step (.round 0)).isSome := ⟨_,_,rfl,rfl,rfl,rfl,rfl⟩

theorem reach_page : ∃ ls s c, Runs.run step (start (fun _ => 0)) ls = some s ∧
    s.callers[0]? = some c ∧ c.phase = .locked ∧ s.index c = 4096 ∧
    (s.step (.round 0)).isSome := by
  obtain ⟨ls,b,st,hr⟩ := filled_bytes (fun _ => 0) (le_refl 4096)
  obtain ⟨s,c,hs,hc⟩ := filled_page b st
  have hcalls : Runs.run step (start (fun _ => 0)) [.call ⟨1,0⟩ true (fun _ => 7) 4097,
      .call ⟨2,0⟩ false (fun _ => 0) 1] = some (filled 0 (fun _ => 0) []) := rfl
  exact ⟨_,s,c,Runs.run_append.mpr ⟨_,hcalls,Runs.run_append.mpr ⟨_,hr,hs⟩⟩,hc⟩

theorem not_pipe_in_block : ∃ ls, (Runs.run step (start (fun _ => 0)) ls).isSome ∧
    ¬ Runs.Along step InBlock (start (fun _ => 0)) ls := by
  obtain ⟨ls,s,c,hr,hi,hph,hx,hsome⟩ := reach_page
  obtain ⟨s',hs'⟩ := Option.isSome_iff_exists.mp hsome
  refine ⟨ls++[.round 0],?_,fun h => ?_⟩
  · have hend := Runs.run_append.mpr ⟨s,hr,Runs.run_cons.mpr ⟨s',hs',Runs.run_nil s'⟩⟩
    exact Option.isSome_iff_exists.mpr ⟨s',hend⟩
  · have hlt := h.at_step hr 0 c rfl hi hph
    rw [hx,block_eq] at hlt
    exact Nat.lt_irrefl _ hlt

end ComplexOS.PipeRun
