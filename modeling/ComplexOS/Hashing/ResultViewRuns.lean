import ComplexOS.Hashing.ResultView
import Mathlib.Order.Basic

/-! # When the view prints every line

Until the flag is set, the lines that were written are those that the view has printed,
followed by as many as there are signals on their way. The flag ends the printing.
-/
namespace ComplexOS.Hashing
open Runs

namespace ResultView
variable {s t : ResultView} {e : Event} {results : List ResultLine} {memory : ℕ → UInt8}
  {b pre line rest : List UInt8} {c : UInt8} {i n : ℕ} {ls : List Event}
  {sent pending : List (List UInt8)}

/-! ### Lines in the memory -/

structure Stored (memory : ℕ → UInt8) (i : ℕ) (b : List UInt8) : Prop where
  index : i = 1+b.length
  bytes : ∀ k c, b[k]? = some c → memory (1+k) = c

theorem Stored.put (h : Stored memory i b) : Stored (Function.update memory i c) (i+1) (b++[c]) := by
  constructor
  · rw [h.index,List.length_append]
    rfl
  · intro k d hk
    rw [h.index]
    rcases Nat.lt_or_ge k b.length with hlt | hge
    · rw [List.getElem?_append_left hlt] at hk
      rw [Function.update_of_ne (by omega)]
      exact h.bytes k d hk
    · rw [List.getElem?_append_right hge] at hk
      have hlt : k-b.length < [c].length := (List.getElem?_eq_some_iff.mp hk).choose
      have hz : k = b.length := by
        rw [List.length_singleton] at hlt
        omega
      subst hz
      rw [Function.update_self]
      simpa using hk

/-- A line that fits is appended whole, and the flag stays as it is. -/
theorem Stored.writeLine (h : Stored memory i b) (hfit : i+line.length < shmSize) :
    Stored (writeLine line memory i).1 (writeLine line memory i).2 (b++(line++[0])) ∧
      (writeLine line memory i).1 0 = memory 0 := by
  have hpos : 0 < i := by
    rw [h.index]
    omega
  induction line generalizing memory i b with
  | nil =>
    unfold ResultView.writeLine
    rw [if_pos (show verifySharedMemoryIndexBounds i from hfit)]
    exact ⟨h.put,Function.update_of_ne (by omega) _ _⟩
  | cons c cs ih =>
    rw [List.length_cons] at hfit
    unfold ResultView.writeLine
    rw [if_pos (show verifySharedMemoryIndexBounds i from Nat.lt_of_le_of_lt (Nat.le_add_right _ _) hfit)]
    obtain ⟨hs,h0⟩ := ih h.put (by omega) (Nat.succ_pos i)
    rw [List.append_assoc] at hs
    exact ⟨hs,h0.trans (Function.update_of_ne (by omega) _ _)⟩

/-- What is read from the begin of a line is the line. -/
theorem Stored.readLine (h : Stored memory i (pre++(line++0::rest))) (h0 : 0 ∉ line)
    (hn : line.length < n) : readLine memory n (1+pre.length) =
      some (line,1+(pre++(line++[0])).length) := by
  induction line generalizing pre n with
  | nil =>
    obtain ⟨n,rfl⟩ := Nat.exists_eq_succ_of_ne_zero (Nat.ne_of_gt hn)
    have hz : memory (1+pre.length) = 0 := h.bytes _ _ (by simp)
    unfold ResultView.readLine
    rw [if_neg (not_not.mpr hz)]
    simp [Nat.add_assoc]
  | cons c cs ih =>
    obtain ⟨n,rfl⟩ := Nat.exists_eq_succ_of_ne_zero (Nat.ne_of_gt (Nat.zero_lt_of_lt hn))
    obtain ⟨hc,hcs⟩ := not_or.mp (fun hx => h0 (List.mem_cons.mpr hx))
    have hm : memory (1+pre.length) = c := h.bytes _ _ (by simp)
    have happ : ∀ l, pre++(c::cs++l) = (pre++[c])++(cs++l) := by simp
    rw [happ] at h
    have hread := ih h hcs (Nat.lt_of_succ_lt_succ hn)
    unfold ResultView.readLine
    rw [if_pos (hm ▸ Ne.symm hc),happ]
    rw [List.length_append,List.length_singleton,← Nat.add_assoc] at hread
    rw [hread,hm]
    rfl

theorem encoded_append (ls ls' : List (List UInt8)) : encoded (ls++ls') = encoded ls++encoded ls' :=
  List.flatMap_append

theorem encoded_singleton (l : List UInt8) : encoded [l] = l++[0] := by
  simp [encoded]

theorem encoded_cons (l : List UInt8) (ls : List (List UInt8)) :
    encoded (l::ls) = l++0::encoded ls := by
  simp [encoded]

/-! ### Steps -/

/-- With the lock open a critical section comes down to its body. -/
theorem critical_eq {f : ResultView → Option ResultView} (hl : s.semaphore .lock = 1)
    (hf : ∀ v, f { s with semaphore := v } = (f s).map (fun t => { t with semaphore := v }))
    (hs : ∀ t, f s = some t → t.semaphore = s.semaphore ∧
      (t.writer = .destroyed ↔ s.writer = .destroyed)) : s.critical f = f s := by
  unfold critical changeSemaphore
  by_cases hd : s.writer = .destroyed
  · rw [if_pos hd,Option.bind_some]
    cases hx : f s with
    | none => rfl
    | some t =>
      rw [Option.bind_some,if_pos ((hs t hx).2.mpr hd)]
  · rw [if_neg hd,hl,if_pos (by decide),Option.bind_some,hf]
    cases hx : f s with
    | none => rfl
    | some t =>
      obtain ⟨hsem,hw⟩ := hs t hx
      have hv : Function.update (Function.update s.semaphore .lock (1+-1)) .lock (1+-1+1) =
          t.semaphore := by
        rw [Function.update_idem,hsem]
        exact Function.update_eq_self_iff.mpr hl.symm
      have hpos : (0 : ℤ) ≤ Function.update s.semaphore .lock (1+-1) .lock+1 := by
        rw [Function.update_self]
        decide
      rw [Option.map_some,Option.bind_some,if_neg (fun h => hd (hw.mp h)),if_pos hpos]
      simp only [Function.update_self,hv]

/-- Until the flag is set. `sent` are the lines in the memory and `pending` those that the
view has not printed. -/
structure Before (results : List ResultLine) (sent pending : List (List UInt8)) (s : ResultView) :
    Prop where
  writer : s.writer = .writing ∨ s.writer = .signalling
  viewer : s.viewer = .waiting ∨ s.viewer = .looking
  lock : s.semaphore .lock = 1
  nonneg : 0 ≤ s.semaphore .messages
  lines : results.map ResultLine.bytes = sent++s.results.map ResultLine.bytes
  stored : Stored s.sharedMemory s.sharedMemoryIndex (encoded sent)
  flag : s.sharedMemory 0 ≠ endFlag
  split : sent = s.printed++pending
  index : s.index = 1+(encoded s.printed).length
  signals : (pending.length : ℤ) = s.semaphore .messages+(if s.writer = .signalling then 1 else 0)+
    (if s.viewer = .looking then 1 else 0)

structure After (printed : List (List UInt8)) (s : ResultView) : Prop where
  writer : s.writer = .finished ∨ s.writer = .destroyed
  lock : s.semaphore .lock = 1
  flag : s.sharedMemory 0 = endFlag
  printed : s.printed = printed

theorem start_before (results : List ResultLine) : Before results [] [] (start results) :=
  ⟨Or.inl rfl,Or.inl rfl,rfl,Int.le_refl 0,rfl,⟨rfl,fun k c hk => (by cases hk)⟩,
    (by decide : (0 : UInt8) ≠ endFlag),rfl,rfl,rfl⟩

theorem look_frame (v : Sem → ℤ) :
    look { s with semaphore := v } = (look s).map (fun t => { t with semaphore := v }) := by
  unfold look
  split
  · cases readLine s.sharedMemory (shmSize-s.index) s.index <;> rfl
  · rfl

theorem look_cases (h : look s = some t) : (s.sharedMemory 0 ≠ endFlag ∧
      ∃ p, readLine s.sharedMemory (shmSize-s.index) s.index = some p ∧
        t = { s with index := p.2, printed := s.printed++[p.1], viewer := .waiting }) ∨
    (s.sharedMemory 0 = endFlag ∧ t = { s with viewer := .stopped }) := by
  unfold look at h
  split at h
  · rename_i hf
    obtain ⟨p,hp,rfl⟩ := Option.map_eq_some_iff.mp h
    exact Or.inl ⟨hf,p,hp,rfl⟩
  · rename_i hf
    exact Or.inr ⟨not_not.mp hf,(Option.some.inj h).symm⟩

theorem look_keeps (h : look s = some t) :
    t.semaphore = s.semaphore ∧ (t.writer = .destroyed ↔ s.writer = .destroyed) := by
  obtain ⟨-,p,-,rfl⟩ | ⟨-,rfl⟩ := look_cases h
  · exact ⟨rfl,Iff.rfl⟩
  · exact ⟨rfl,Iff.rfl⟩

/-- What each step does while the lock is open. -/
theorem step_cases (hl : s.semaphore .lock = 1) (h : step s e = some t) :
    (e = .write ∧ s.writer = .writing ∧ ∃ r rest, s.results = r::rest ∧ t = s.append r rest) ∨
    (e = .signal ∧ s.writer = .signalling ∧ ∃ u, s.changeSemaphore .messages 1 = some u ∧
      t = { u with writer := .writing }) ∨
    (e = .finish ∧ s.writer = .writing ∧ s.results = [] ∧ t = s.setFlag) ∨
    (e = .destroy ∧ s.writer = .finished ∧ t = { s with writer := .destroyed }) ∨
    (e = .await ∧ s.viewer = .waiting ∧ ∃ u, s.changeSemaphore .messages (-1) = some u ∧
      t = { u with viewer := .looking }) ∨
    (e = .look ∧ s.viewer = .looking ∧ look s = some t) := by
  cases e with
  | write =>
    simp only [step] at h
    split at h
    · rename_i r rest hw hr
      rw [critical_eq hl (fun _ => rfl) (fun t ht => by
        cases ht
        exact ⟨rfl,by simp [append,hw]⟩)] at h
      exact Or.inl ⟨rfl,hw,r,rest,hr,(Option.some.inj h).symm⟩
    · cases h
  | signal =>
    simp only [step] at h
    split at h
    · rename_i hw
      obtain ⟨u,hu,rfl⟩ := Option.map_eq_some_iff.mp h
      exact Or.inr (Or.inl ⟨rfl,hw,u,hu,rfl⟩)
    · cases h
  | finish =>
    simp only [step] at h
    split at h
    · rename_i hw hr
      rw [critical_eq hl (fun _ => rfl) (fun t ht => by
        cases ht
        exact ⟨rfl,by simp [setFlag,hw]⟩)] at h
      exact Or.inr (Or.inr (Or.inl ⟨rfl,hw,hr,(Option.some.inj h).symm⟩))
    · cases h
  | destroy =>
    simp only [step] at h
    split at h
    · rename_i hw
      exact Or.inr (Or.inr (Or.inr (Or.inl ⟨rfl,hw,(Option.some.inj h).symm⟩)))
    · cases h
  | await =>
    simp only [step] at h
    split at h
    · rename_i hv
      obtain ⟨u,hu,rfl⟩ := Option.map_eq_some_iff.mp h
      exact Or.inr (Or.inr (Or.inr (Or.inr (Or.inl ⟨rfl,hv,u,hu,rfl⟩))))
    · cases h
  | look =>
    simp only [step] at h
    split at h
    · rename_i hv
      rw [critical_eq hl look_frame (fun _ => look_keeps)] at h
      exact Or.inr (Or.inr (Or.inr (Or.inr (Or.inr ⟨rfl,hv,h⟩))))
    · cases h

theorem changeSemaphore_cases {k : Sem} {change : ℤ} (h : s.changeSemaphore k change = some t) :
    (s.writer = .destroyed ∧ t = s) ∨ (s.writer ≠ .destroyed ∧ 0 ≤ s.semaphore k+change ∧
      t = { s with semaphore := Function.update s.semaphore k (s.semaphore k+change) }) := by
  unfold changeSemaphore at h
  split at h
  · rename_i hd
    exact Or.inl ⟨hd,(Option.some.inj h).symm⟩
  · rename_i hd
    split at h
    · rename_i hp
      exact Or.inr ⟨hd,hp,(Option.some.inj h).symm⟩
    · cases h

theorem Before.write {r : ResultLine} {later : List ResultLine} (h : Before results sent pending s)
    (hfit : (encoded (results.map ResultLine.bytes)).length < shmSize) (hw : s.writer = .writing)
    (hr : s.results = r::later) :
    Before results (sent++[r.bytes]) (pending++[r.bytes]) (s.append r later) := by
  have hlines := h.lines
  rw [hr,List.map_cons] at hlines
  have hroom : s.sharedMemoryIndex+r.bytes.length < shmSize := by
    have hlen := hfit
    rw [hlines,encoded_append,encoded_cons,List.length_append,List.length_append,
      List.length_cons] at hlen
    rw [h.stored.index]
    omega
  obtain ⟨hstored,hflag⟩ := h.stored.writeLine hroom
  constructor
  · exact Or.inr rfl
  · exact h.viewer
  · exact h.lock
  · exact h.nonneg
  · rw [hlines]
    simp [append]
  · rw [encoded_append,encoded_singleton]
    exact hstored
  · exact fun hx => h.flag (hflag.symm.trans hx)
  · rw [h.split,List.append_assoc]
    rfl
  · exact h.index
  · have hs := h.signals
    rw [hw,if_neg (by decide)] at hs
    rw [List.length_append,List.length_singleton]
    show ((pending.length+1 : ℕ) : ℤ) = s.semaphore .messages+1+(if s.viewer = .looking then 1 else 0)
    omega

theorem Before.signal (h : Before results sent pending s) (hw : s.writer = .signalling)
    (hu : s.changeSemaphore .messages 1 = some t) :
    Before results sent pending { t with writer := .writing } := by
  obtain ⟨hd,-⟩ | ⟨-,hp,rfl⟩ := changeSemaphore_cases hu
  · rw [hw] at hd
    cases hd
  · have hs := h.signals
    rw [hw,if_pos rfl] at hs
    refine ⟨Or.inl rfl,h.viewer,h.lock,?_,h.lines,h.stored,h.flag,h.split,h.index,?_⟩
    · show 0 ≤ Function.update s.semaphore .messages _ .messages
      rwa [Function.update_self]
    · show (pending.length : ℤ) = s.semaphore .messages+1+0+(if s.viewer = .looking then 1 else 0)
      omega

theorem Before.await (h : Before results sent pending s) (hv : s.viewer = .waiting)
    (hu : s.changeSemaphore .messages (-1) = some t) :
    Before results sent pending { t with viewer := .looking } := by
  obtain ⟨hd,-⟩ | ⟨-,hp,rfl⟩ := changeSemaphore_cases hu
  · rcases h.writer with hw | hw <;> rw [hw] at hd <;> cases hd
  · have hs := h.signals
    rw [hv,if_neg (show ¬ Viewer.waiting = .looking by decide)] at hs
    refine ⟨h.writer,Or.inr rfl,h.lock,?_,h.lines,h.stored,h.flag,h.split,h.index,?_⟩
    · show 0 ≤ Function.update s.semaphore .messages _ .messages
      rwa [Function.update_self]
    · show (pending.length : ℤ) =
        s.semaphore .messages+(-1)+(if s.writer = .signalling then 1 else 0)+1
      omega

/-- The view that has followed a signal finds a line and prints it. -/
theorem Before.look (h : Before results sent pending s)
    (hfit : (encoded (results.map ResultLine.bytes)).length < shmSize) (hv : s.viewer = .looking)
    (hx : s.look = some t) : ∃ later, Before results sent later t := by
  have hs := h.signals
  rw [hv,if_pos rfl] at hs
  obtain ⟨-,p,hp,rfl⟩ | ⟨hf,-⟩ := look_cases hx
  · cases pending with
    | nil =>
      have := h.nonneg
      split at hs <;> simp at hs <;> omega
    | cons l later =>
      have hsent := congrArg encoded h.split
      rw [encoded_append,encoded_cons] at hsent
      have hl : 0 ∉ l := by
        have hmem : l ∈ results.map ResultLine.bytes := by
          rw [h.lines,h.split]
          simp
        obtain ⟨r,-,rfl⟩ := List.mem_map.mp hmem
        exact r.noNul
      have hroom : l.length < shmSize-s.index := by
        have hlen := hfit
        rw [h.lines,encoded_append,hsent,List.length_append,List.length_append,List.length_append,
          List.length_cons] at hlen
        rw [h.index]
        omega
      have hread := Stored.readLine (hsent ▸ h.stored) hl hroom
      rw [← h.index,hp] at hread
      obtain rfl := Option.some.inj hread
      refine ⟨later,h.writer,Or.inl rfl,h.lock,h.nonneg,h.lines,h.stored,h.flag,?_,?_,?_⟩
      · rw [h.split,List.append_assoc]
        rfl
      · show _ = 1+(encoded (s.printed++[l])).length
        rw [encoded_append,encoded_singleton]
      · rw [List.length_cons] at hs
        show (later.length : ℤ) =
          s.semaphore .messages+(if s.writer = .signalling then 1 else 0)+0
        omega
  · exact absurd hf h.flag

/-- Steps before the flag, and the step that sets it. -/
theorem Before.step (h : Before results sent pending s)
    (hfit : (encoded (results.map ResultLine.bytes)).length < shmSize) (hs : step s e = some t) :
    (e ≠ .finish ∧ ∃ sent pending, Before results sent pending t) ∨
      (e = .finish ∧ s.writer = .writing ∧ s.results = [] ∧ After s.printed t) := by
  obtain ⟨rfl,hw,r,later,hr,rfl⟩ | ⟨rfl,hw,u,hu,rfl⟩ | ⟨rfl,hw,hr,rfl⟩ | ⟨rfl,hw,-⟩ |
    ⟨rfl,hv,u,hu,rfl⟩ | ⟨rfl,hv,hx⟩ := step_cases h.lock hs
  · exact Or.inl ⟨by decide,_,_,h.write hfit hw hr⟩
  · exact Or.inl ⟨by decide,_,_,h.signal hw hu⟩
  · have hflag : s.setFlag.sharedMemory 0 = endFlag := by
      unfold setFlag
      exact Function.update_self 0 endFlag s.sharedMemory
    exact Or.inr ⟨rfl,hw,hr,Or.inl rfl,h.lock,hflag,rfl⟩
  · rcases h.writer with hx | hx <;> rw [hx] at hw <;> cases hw
  · exact Or.inl ⟨by decide,_,_,h.await hv hu⟩
  · obtain ⟨later,hl⟩ := h.look hfit hv hx
    exact Or.inl ⟨by decide,_,_,hl⟩

theorem After.step {printed : List (List UInt8)} (h : After printed s) (hs : step s e = some t) :
    e ≠ .finish ∧ After printed t := by
  obtain ⟨-,hw,-⟩ | ⟨-,hw,-⟩ | ⟨-,hw,-⟩ | ⟨rfl,-,rfl⟩ | ⟨rfl,-,u,hu,rfl⟩ | ⟨rfl,-,hx⟩ :=
    step_cases h.lock hs
  · rcases h.writer with hx | hx <;> rw [hx] at hw <;> cases hw
  · rcases h.writer with hx | hx <;> rw [hx] at hw <;> cases hw
  · rcases h.writer with hx | hx <;> rw [hx] at hw <;> cases hw
  · exact ⟨by decide,Or.inr rfl,h.lock,h.flag,h.printed⟩
  · refine ⟨by decide,?_⟩
    obtain ⟨-,rfl⟩ | ⟨-,-,rfl⟩ := changeSemaphore_cases hu
    · exact ⟨h.writer,h.lock,h.flag,h.printed⟩
    · exact ⟨h.writer,h.lock,h.flag,h.printed⟩
  · refine ⟨by decide,?_⟩
    obtain ⟨hf,-⟩ | ⟨-,rfl⟩ := look_cases hx
    · exact absurd h.flag hf
    · exact ⟨h.writer,h.lock,h.flag,h.printed⟩

/-! ### Runs -/

theorem After.run {printed : List (List UInt8)} (h : After printed s)
    (hr : run ResultView.step s ls = some t) : t.printed = printed ∧ Along ResultView.step Drained s ls := by
  induction ls generalizing s with
  | nil =>
    cases hr
    exact ⟨h.printed,trivial⟩
  | cons e ls ih =>
    obtain ⟨u,hu,hr⟩ := run_cons.mp hr
    obtain ⟨he,hafter⟩ := h.step hu
    obtain ⟨hp,hd⟩ := ih hafter hr
    refine ⟨hp,fun hx => absurd hx he,fun v hv => ?_⟩
    obtain rfl : u = v := Option.some.inj (hu.symm.trans hv)
    exact hd

/-- All lines are printed when the flag is set exactly if no signal is left then. -/
theorem Before.printed_iff (h : Before results sent pending s) (hw : s.writer = .writing)
    (hr : s.results = []) :
    s.printed = results.map ResultLine.bytes ↔ s.semaphore .messages = 0 ∧ s.viewer = .waiting := by
  have hs := h.signals
  have hn := h.nonneg
  rw [hw,if_neg (by decide)] at hs
  rw [h.lines,hr,List.map_nil,List.append_nil,h.split,List.self_eq_append_right,
    ← List.length_eq_zero_iff]
  rcases h.viewer with hv | hv
  · rw [hv,if_neg (by decide)] at hs
    constructor
    · intro hp
      exact ⟨by omega,hv⟩
    · rintro ⟨hm,-⟩
      omega
  · rw [hv,if_pos rfl] at hs
    constructor
    · intro hp
      omega
    · rintro ⟨-,hx⟩
      rw [hv] at hx
      cases hx

theorem Before.run (h : Before results sent pending s)
    (hfit : (encoded (results.map ResultLine.bytes)).length < shmSize)
    (hr : run ResultView.step s ls = some t) (hstop : t.viewer = .stopped) :
    t.printed = results.map ResultLine.bytes ↔ Along ResultView.step Drained s ls := by
  induction ls generalizing s sent pending with
  | nil =>
    cases hr
    rcases h.viewer with hv | hv <;> rw [hv] at hstop <;> cases hstop
  | cons e ls ih =>
    obtain ⟨u,hu,hrest⟩ := run_cons.mp hr
    have htail : (∀ v, ResultView.step s e = some v → Along ResultView.step Drained v ls) ↔
        Along ResultView.step Drained u ls := by
      constructor
      · exact fun hv => hv u hu
      · intro hd v hv
        obtain rfl : u = v := Option.some.inj (hu.symm.trans hv)
        exact hd
    unfold Along
    rw [htail]
    obtain ⟨he,sent,pending,hb⟩ | ⟨rfl,hw,hres,ha⟩ := h.step hfit hu
    · rw [ih hb hrest]
      exact ⟨fun hd => ⟨fun hx => absurd hx he,hd⟩,And.right⟩
    · obtain ⟨hp,hd⟩ := ha.run hrest
      rw [hp,h.printed_iff hw hres]
      exact ⟨fun hx => ⟨fun _ => hx,hd⟩,fun hx => hx.1 rfl⟩

/-- The view that has stopped has printed every line, once and in order, if and only if no
signal was left when the flag was set. -/
theorem view_complete (hfit : (encoded (results.map ResultLine.bytes)).length < shmSize)
    (hr : run ResultView.step (start results) ls = some s) (hstop : s.viewer = .stopped) :
    s.printed = results.map ResultLine.bytes ↔ Along ResultView.step Drained (start results) ls :=
  (start_before results).run hfit hr hstop

def twoLines : List ResultLine := [⟨[65],by decide⟩,⟨[66,67],by decide⟩]

/-- The view prints both lines, waits, and is woken when the semaphores are destroyed. -/
def followed : List Event :=
  [.write,.signal,.await,.look,.write,.signal,.await,.look,.finish,.destroy,.await,.look]

theorem view_complete_two : ∃ s, run ResultView.step (start twoLines) followed = some s ∧
    s.viewer = .stopped ∧ s.printed = [[65],[66,67]] ∧
      Along ResultView.step Drained (start twoLines) followed := by
  have hr : ∃ s, run ResultView.step (start twoLines) followed = some s ∧ s.viewer = .stopped ∧
      s.printed = twoLines.map ResultLine.bytes := ⟨_,rfl,rfl,rfl⟩
  obtain ⟨s,hr,hstop,hp⟩ := hr
  exact ⟨s,hr,hstop,hp,(view_complete (by decide) hr hstop).mp hp⟩

/-- The flag is set before the view has followed the signal of the second line. -/
theorem view_complete_fails : ¬ ∀ (results : List ResultLine) (ls : List Event) (s : ResultView),
    (encoded (results.map ResultLine.bytes)).length < shmSize →
    run ResultView.step (start results) ls = some s → s.viewer = .stopped →
    s.printed = results.map ResultLine.bytes := by
  intro hall
  have hx := hall twoLines [.write,.signal,.await,.look,.write,.signal,.finish,.destroy,.await,.look]
    _ (by decide) rfl rfl
  exact absurd hx (by decide)

end ResultView
end ComplexOS.Hashing
