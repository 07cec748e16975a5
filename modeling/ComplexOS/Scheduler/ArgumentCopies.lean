import ComplexOS.Heap.HeapRuns
import ComplexOS.Ipc.ChannelCalls

/-! # Copies of arguments

A new process and a new thread get their arguments in blocks of their own. Any of the
requests for a block may find the heap without room for it.
-/
namespace ComplexOS

/-- What is found at an address that is taken for a string. -/
structure Argument where
  address : ℕ
  text : List UInt8

structure ArgumentArray where
  address : ℕ
  entries : ℕ → Argument

/-- `sizeof(char **)`. -/
def pointerSize : ℕ := 8

namespace BuddyAllocator

namespace RunState

def allocatePages (pages : ℕ) (s : RunState) : Option (ℕ × RunState) :=
  (BuddyAllocator.allocatePages pages s.heap).bind (fun x =>
    (serve s (.allocatePages pages)).map (fun s => (x.1,s)))

def allocateMemory (bytes : ℕ) (s : RunState) : Option (ℕ × RunState) :=
  allocatePages (pagesToAllocate bytes) s

/-- The loop of `backupArguments` from index `i` on. It ends early at a string that there is
no room for. -/
def copyStrings (argv : ℕ → Argument) :
    ℕ → ℕ → (ℕ → Argument) → RunState → Option ((ℕ → Argument) × RunState)
  | 0, _, temp, s => some (temp,s)
  | n+1, i, temp, s => (allocateMemory ((argv i).text.length+1) s).bind (fun x =>
    if x.1 = null then some (temp,x.2)
    else copyStrings argv n (i+1) (Function.update temp i ⟨x.1,(argv i).text⟩) x.2)

/-- `page` is what lies in the fresh array. -/
def backupArguments (argc : ℤ) (argv : ArgumentArray) (page : ℕ → Argument) (s : RunState) :
    Option (ArgumentArray × RunState) :=
  if 0 < argc then (allocateMemory (argc.toNat*pointerSize) s).bind (fun x =>
    if x.1 = null then some (argv,x.2)
    else (copyStrings argv.entries argc.toNat 0 page x.2).map (fun y => (⟨x.1,y.1⟩,y.2)))
  else some (argv,s)

end RunState

def hasRoom : List ℕ → Heap → Bool
  | [], _ => true
  | q::qs, h => (allocatePages q h).elim false (fun x => decide (x.1 ≠ null) && hasRoom qs x.2)

structure Obtained (qs as : List ℕ) (s s' : RunState) : Prop where
  ok : RunOk s'
  blocks : ∃ news, s'.live = news++s.live ∧ news.map Block.address = as.reverse
  length : as.length = qs.length
  nonnull : null ∉ as
  room : ∀ rest, hasRoom (qs++rest) s.heap = hasRoom rest s'.heap

structure Short (qs : List ℕ) (s s' : RunState) : Prop where
  ok : RunOk s'
  blocks : ∃ news, s'.live = news++s.live ∧ news.length < qs.length
  room : ∀ rest, hasRoom (qs++rest) s.heap = false

variable {s s' s'' : RunState} {q : ℕ} {qs qs' as as' : List ℕ}

theorem Obtained.refl (hs : RunOk s) : Obtained [] [] s s :=
  ⟨hs,⟨[],rfl,rfl⟩,rfl,List.not_mem_nil,fun _ => rfl⟩

theorem Obtained.append (h : Obtained qs as s s') (h' : Obtained qs' as' s' s'') :
    Obtained (qs++qs') (as++as') s s'' := by
  obtain ⟨news,hlive,hnews⟩ := h.blocks
  obtain ⟨news',hlive',hnews'⟩ := h'.blocks
  refine ⟨h'.ok,⟨news'++news,?_,?_⟩,?_,?_,fun rest => ?_⟩
  · rw [hlive',hlive,List.append_assoc]
  · rw [List.map_append,hnews,hnews',List.reverse_append]
  · rw [List.length_append,List.length_append,h.length,h'.length]
  · rw [List.mem_append]
    exact fun hm => hm.elim h.nonnull h'.nonnull
  · rw [List.append_assoc,h.room,h'.room]

theorem Obtained.count (h : Obtained qs as s s') :
    ∃ news, s'.live = news++s.live ∧ news.length = qs.length := by
  obtain ⟨news,hlive,hnews⟩ := h.blocks
  have hlen := congrArg List.length hnews
  rw [List.length_map,List.length_reverse,h.length] at hlen
  exact ⟨news,hlive,hlen⟩

theorem Obtained.short (h : Obtained qs as s s') (h' : Short qs' s' s'') :
    Short (qs++qs') s s'' := by
  obtain ⟨news,hlive,hlen⟩ := h.count
  obtain ⟨news',hlive',hlt⟩ := h'.blocks
  refine ⟨h'.ok,⟨news'++news,?_,?_⟩,fun rest => ?_⟩
  · rw [hlive',hlive,List.append_assoc]
  · rw [List.length_append,List.length_append,hlen]
    omega
  · rw [List.append_assoc,h.room]
    exact h'.room rest

/-- Nothing makes up for a missing block. -/
theorem Short.obtained (h : Short qs s s') (h' : Obtained qs' as' s' s'') :
    Short (qs++qs') s s'' := by
  obtain ⟨news,hlive,hlt⟩ := h.blocks
  obtain ⟨news',hlive',hlen⟩ := h'.count
  refine ⟨h'.ok,⟨news'++news,?_,?_⟩,fun rest => ?_⟩
  · rw [hlive',hlive,List.append_assoc]
  · rw [List.length_append,List.length_append,hlen]
    omega
  · rw [List.append_assoc]
    exact h.room _

theorem Short.live_eq (h : Short [q] s s') : s'.live = s.live := by
  obtain ⟨news,hlive,hlt⟩ := h.blocks
  have hnil : news = [] := List.length_eq_zero_iff.mp (Nat.lt_one_iff.mp hlt)
  rw [hlive,hnil,List.nil_append]

/-- A request that is answered before the ones it stands in front of are made. -/
theorem Short.append (h : Short qs s s') : Short (qs++qs') s s' := by
  obtain ⟨news,hlive,hlt⟩ := h.blocks
  refine ⟨h.ok,⟨news,hlive,?_⟩,fun rest => ?_⟩
  · rw [List.length_append]
    omega
  · rw [List.append_assoc]
    exact h.room _

theorem Obtained.hasRoom (h : Obtained qs as s s') : BuddyAllocator.hasRoom qs s.heap = true := by
  have hroom := h.room []
  rwa [List.append_nil] at hroom

theorem Short.hasRoom (h : Short qs s s') : BuddyAllocator.hasRoom qs s.heap = false := by
  have hroom := h.room []
  rwa [List.append_nil] at hroom

/-! ### Requests -/

/-- One request is served, or the answer is NULL. -/
theorem RunState.allocatePages_cases (hs : RunOk s) (q : ℕ) : ∃ a s',
    RunState.allocatePages q s = some (a,s') ∧
      ((a = null ∧ Short [q] s s') ∨ (a ≠ null ∧ Obtained [q] [a] s s')) := by
  obtain ⟨a,h',he,hok⟩ := allocatePages_total hs q
  by_cases ha : a = null
  · subst ha
    have hserve := serve_null he
    refine ⟨null,_,?_,Or.inl ⟨rfl,hok _ hserve,⟨[],rfl,Nat.zero_lt_one⟩,fun rest => ?_⟩⟩
    · unfold RunState.allocatePages
      rw [he,hserve]
      rfl
    · simp [hasRoom,he]
  · have hserve := serve_block he ha
    refine ⟨a,_,?_,Or.inr ⟨ha,hok _ hserve,⟨[_],rfl,rfl⟩,rfl,?_,fun rest => ?_⟩⟩
    · unfold RunState.allocatePages
      rw [he,hserve]
      rfl
    · simpa using Ne.symm ha
    · simp [hasRoom,he,ha]

/-! ### Copies -/

def stringPages (argv : ℕ → Argument) (i n : ℕ) : List ℕ :=
  (List.range' i n).map (fun k => pagesToAllocate ((argv k).text.length+1))

def argumentPages (argc : ℤ) (argv : ArgumentArray) : List ℕ :=
  if 0 < argc then
    pagesToAllocate (argc.toNat*pointerSize)::stringPages argv.entries 0 argc.toNat
  else []

def argumentBlocks (argc : ℤ) (copy : ArgumentArray) : List ℕ :=
  if 0 < argc then
    copy.address::(List.range' 0 argc.toNat).map (fun k => (copy.entries k).address)
  else []

theorem Obtained.mem {b : Block} (h : Obtained qs as s s') (hb : b ∈ s'.live) :
    b.address ∈ as ∨ b ∈ s.live := by
  obtain ⟨news,hlive,hnews⟩ := h.blocks
  rw [hlive] at hb
  refine (List.mem_append.mp hb).imp_left (fun hb => ?_)
  have hmem := List.mem_map_of_mem (f := Block.address) hb
  rwa [hnews,List.mem_reverse] at hmem

theorem RunState.copyStrings_cases (argv : ℕ → Argument) (n i : ℕ) (temp : ℕ → Argument)
    (hs : RunOk s) : ∃ entries s', RunState.copyStrings argv n i temp s = some (entries,s') ∧
      (∀ k, k < i → entries k = temp k) ∧
        (∀ b ∈ s'.live, b.address ∈ (List.range' i n).map (fun k => (entries k).address) ∨
          b ∈ s.live) ∧
          (Short (stringPages argv i n) s s' ∨
            Obtained (stringPages argv i n) ((List.range' i n).map (fun k => (entries k).address))
              s s' ∧ ∀ k, i ≤ k → k < i+n → (entries k).text = (argv k).text) := by
  induction n generalizing i temp s with
  | zero =>
    refine ⟨temp,s,rfl,fun _ _ => rfl,fun _ hb => Or.inr hb,Or.inr ⟨Obtained.refl hs,?_⟩⟩
    intro k hk hlt
    omega
  | succ n ih =>
    have hpages : stringPages argv i (n+1) =
        [pagesToAllocate ((argv i).text.length+1)]++stringPages argv (i+1) n := by
      simp [stringPages,List.range'_succ]
    obtain ⟨a,s₁,he,hcase⟩ :=
      RunState.allocatePages_cases hs (pagesToAllocate ((argv i).text.length+1))
    unfold RunState.copyStrings RunState.allocateMemory
    rw [he,hpages,Option.bind_some]
    obtain ⟨ha,hshort⟩ | ⟨ha,hone⟩ := hcase
    · rw [if_pos ha]
      refine ⟨temp,s₁,rfl,fun _ _ => rfl,fun b hb => Or.inr ?_,Or.inl hshort.append⟩
      rwa [← hshort.live_eq]
    · rw [if_neg ha]
      obtain ⟨entries,s₂,hcopy,hkeep,hcover,hrest⟩ :=
        ih (i+1) (Function.update temp i ⟨a,(argv i).text⟩) hone.ok
      have hentry : entries i = ⟨a,(argv i).text⟩ := by
        rw [hkeep i (Nat.lt_succ_self i),Function.update_self]
      have hblocks : (List.range' i (n+1)).map (fun k => (entries k).address) =
          [a]++(List.range' (i+1) n).map (fun k => (entries k).address) := by
        rw [List.range'_succ,List.map_cons,hentry]
        rfl
      refine ⟨entries,s₂,hcopy,fun k hk => ?_,?_⟩
      · rw [hkeep k (by omega),Function.update_of_ne (by omega)]
      rw [hblocks]
      refine ⟨fun b hb => ?_,?_⟩
      · obtain hb | hb := hcover b hb
        · exact Or.inl (List.mem_cons_of_mem _ hb)
        · exact (hone.mem hb).imp_left (fun hb => List.mem_cons.mpr (Or.inl (List.mem_singleton.mp hb)))
      · obtain hshort | ⟨hall,htext⟩ := hrest
        · exact Or.inl (hone.short hshort)
        · refine Or.inr ⟨hone.append hall,fun k hk hlt => ?_⟩
          obtain rfl | hne := Nat.eq_or_lt_of_le hk
          · rw [hentry]
          · exact htext k hne (by omega)

/-- The arguments are copied, each string into a block of its own, or a block is missing. -/
theorem RunState.backupArguments_cases (argc : ℤ) (argv : ArgumentArray) (page : ℕ → Argument)
    (hs : RunOk s) : ∃ copy s', RunState.backupArguments argc argv page s = some (copy,s') ∧
      (∀ b ∈ s'.live, copy.address ≠ null ∧ b.address ∈ argumentBlocks argc copy ∨ b ∈ s.live) ∧
        (Short (argumentPages argc argv) s s' ∨
          Obtained (argumentPages argc argv) (argumentBlocks argc copy) s s' ∧
            (argc ≤ 0 → copy = argv) ∧
              ∀ k : ℕ, (k : ℤ) < argc → (copy.entries k).text = (argv.entries k).text) := by
  unfold RunState.backupArguments argumentPages argumentBlocks
  by_cases hc : 0 < argc
  · simp only [if_pos hc]
    obtain ⟨a,s₁,he,hcase⟩ :=
      RunState.allocatePages_cases hs (pagesToAllocate (argc.toNat*pointerSize))
    unfold RunState.allocateMemory
    rw [he,Option.bind_some]
    obtain ⟨ha,hshort⟩ | ⟨ha,hone⟩ := hcase
    · rw [if_pos ha]
      refine ⟨argv,s₁,rfl,fun b hb => Or.inr ?_,Or.inl hshort.append⟩
      rwa [← hshort.live_eq]
    · rw [if_neg ha]
      obtain ⟨entries,s₂,hcopy,-,hcover,hrest⟩ :=
        RunState.copyStrings_cases argv.entries argc.toNat 0 page hone.ok
      rw [hcopy]
      refine ⟨⟨a,entries⟩,s₂,rfl,fun b hb => ?_,?_⟩
      · obtain hb | hb := hcover b hb
        · exact Or.inl ⟨ha,List.mem_cons_of_mem _ hb⟩
        · refine (hone.mem hb).imp_left (fun hb => ⟨ha,List.mem_cons.mpr (Or.inl ?_)⟩)
          exact List.mem_singleton.mp hb
      · obtain hshort | ⟨hall,htext⟩ := hrest
        · exact Or.inl (hone.short hshort)
        · refine Or.inr ⟨hone.append hall,fun hle => absurd hc (not_lt.mpr hle),fun k hk => ?_⟩
          exact htext k (Nat.zero_le k) (by omega)
  · simp only [if_neg hc]
    refine ⟨argv,s,rfl,fun _ hb => Or.inr hb,Or.inr ⟨Obtained.refl hs,fun _ => rfl,fun k hk => ?_⟩⟩
    omega

end BuddyAllocator
end ComplexOS
