import ComplexOS.Hashing.Distribution
import Mathlib.Algebra.BigOperators.Fin
import Mathlib.Algebra.Order.BigOperators.Group.Finset

/-! # What is written to the slaves and what comes back

Every counter is tied to what has gone through the pipes: the names that were written and
the lines that were read. A slave is stopped only when no name is left to hand out, hence
no name follows a stop.
-/
namespace ComplexOS.Hashing
open Runs
variable {α : Type*} {md5sum : α → Line}

namespace Message
variable {ms ms' : List (Message α)} {m : Message α} {f : α}

@[simp] theorem names_nil : names ([] : List (Message α)) = [] := rfl

@[simp] theorem names_append : names (ms++ms') = names ms++names ms' := List.filterMap_append

@[simp] theorem names_file : names [file f] = [f] := rfl

@[simp] theorem names_stop : names [(stop : Message α)] = [] := rfl

@[simp] theorem names_cons_file : names (file f::ms) = f::names ms := rfl

@[simp] theorem names_cons_stop : names (stop::ms) = names ms := rfl

end Message
open Message

namespace Slave
variable {s t : Slave α} {taken : List (Message α)} {line : Line} {rest : List Line}

structure Answers (md5sum : α → Line) (s : Slave α) (taken : List (Message α)) : Prop where
  sent : s.sent = taken++s.input
  lines : s.read++s.output = (names taken).map md5sum
  exited : s.exited = true ↔ stop ∈ taken

structure Ok (md5sum : α → Line) (s : Slave α) : Prop where
  answers : ∃ taken, s.Answers md5sum taken
  stops : s.sent = (names s.sent).map file++(if s.pid = 0 then [stop] else [])
  remaining : s.remainingFiles = (names s.sent).length-s.read.length
  batch : s.remainingFiles ≤ batchSize

theorem Answers.read_le (h : s.Answers md5sum taken) : s.read.length ≤ (names s.sent).length := by
  have hl := congrArg List.length h.lines
  have hs := congrArg (fun ms => (names ms).length) h.sent
  simp only [List.length_append,List.length_map,names_append] at hl hs
  omega

theorem Ok.nonneg (h : s.Ok md5sum) : 0 ≤ s.remainingFiles := by
  obtain ⟨taken,ht⟩ := h.answers
  have := ht.read_le
  have := h.remaining
  omega

theorem Answers.write (h : s.Answers md5sum taken) (m : Message α) :
    (s.write m).Answers md5sum taken :=
  ⟨by rw [Slave.write,h.sent,List.append_assoc],h.lines,h.exited⟩

/-- A slave that has room for it and has not been stopped gets a name. -/
theorem Ok.writeFile (h : s.Ok md5sum) (hp : s.pid ≠ 0) (hr : s.remainingFiles < batchSize)
    (f : α) : Ok md5sum { s.write (file f) with remainingFiles := s.remainingFiles+1 } := by
  obtain ⟨taken,ht⟩ := h.answers
  have hsent := h.stops
  rw [if_neg hp,List.append_nil] at hsent
  constructor
  · exact ⟨taken,(ht.write (file f)).sent,ht.lines,ht.exited⟩
  · show s.sent++[file f] = (names (s.sent++[file f])).map file++(if s.pid = 0 then [stop] else [])
    rw [if_neg hp,List.append_nil,names_append,List.map_append,← hsent]
    rfl
  · have := h.remaining
    simp only [Slave.write,names_append,names_file,List.length_append,List.length_singleton]
    omega
  · show s.remainingFiles+1 ≤ _
    omega

theorem Ok.stopSlave (h : s.Ok md5sum) (hp : s.pid ≠ 0) : s.stopSlave.Ok md5sum := by
  obtain ⟨taken,ht⟩ := h.answers
  have hsent := h.stops
  rw [if_neg hp,List.append_nil] at hsent
  constructor
  · exact ⟨taken,(ht.write stop).sent,ht.lines,ht.exited⟩
  · simp only [Slave.stopSlave,Slave.write,names_append,names_stop,List.append_nil,if_true]
    rw [← hsent]
  · simpa [Slave.stopSlave,Slave.write] using h.remaining
  · exact h.batch

theorem take_cases (h : s.take md5sum = some t) : s.exited = false ∧
    ((∃ f rest, s.input = file f::rest ∧ t = { s with input := rest, output := s.output++[md5sum f] }) ∨
      ∃ rest, s.input = stop::rest ∧ t = { s with input := rest, exited := true }) := by
  unfold take at h
  split at h
  · cases h
  · rename_i he
    refine ⟨by simpa using he,?_⟩
    split at h
    · cases h
    · rename_i f rest hi
      exact Or.inl ⟨f,rest,hi,(Option.some.inj h).symm⟩
    · rename_i rest hi
      exact Or.inr ⟨rest,hi,(Option.some.inj h).symm⟩

theorem Ok.take (h : s.Ok md5sum) (ht : s.take md5sum = some t) :
    t.Ok md5sum ∧ t.sent = s.sent ∧ t.read = s.read ∧ t.pid = s.pid ∧
      t.remainingFiles = s.remainingFiles := by
  obtain ⟨taken,ha⟩ := h.answers
  obtain ⟨he,⟨f,rest,hi,rfl⟩ | ⟨rest,hi,rfl⟩⟩ := take_cases ht
  · refine ⟨⟨⟨taken++[file f],?_,?_,?_⟩,h.stops,h.remaining,h.batch⟩,rfl,rfl,rfl,rfl⟩
    · simp [ha.sent,hi]
    · simp [← List.append_assoc,ha.lines]
    · simpa using ha.exited
  · refine ⟨⟨⟨taken++[stop],?_,?_,?_⟩,h.stops,h.remaining,h.batch⟩,rfl,rfl,rfl,rfl⟩
    · simp [ha.sent,hi]
    · simpa using ha.lines
    · simp

/-- Nothing has come from a slave that is ready without a line: it has closed its pipe. -/
theorem readLine_cases (h : s.Ok md5sum) (hline : ∀ f, md5sum f ≠ []) :
    (s.output = [] ∧ s.readLine = (false,s)) ∨ ∃ line rest, s.output = line::rest ∧
      s.readLine = (true,{ s with output := rest, read := s.read++[line] }) := by
  obtain ⟨taken,ha⟩ := h.answers
  unfold readLine
  split
  · rename_i ho
    exact Or.inl ⟨ho,rfl⟩
  · rename_i line rest ho
    refine Or.inr ⟨line,rest,ho,?_⟩
    have hmem : line ∈ (names taken).map md5sum := by
      rw [← ha.lines,ho]
      simp
    obtain ⟨f,-,rfl⟩ := List.mem_map.mp hmem
    rw [decide_eq_true (List.length_pos_iff.mpr (hline f))]

theorem Ok.readLine (h : s.Ok md5sum) (ho : s.output = line::rest) :
    Ok md5sum { s with output := rest, read := s.read++[line], remainingFiles := s.remainingFiles-1 } := by
  obtain ⟨taken,ha⟩ := h.answers
  have hr := h.remaining
  have hb := h.batch
  refine ⟨⟨taken,ha.sent,?_,ha.exited⟩,h.stops,?_,?_⟩
  · rw [← ha.lines,ho]
    simp
  · simp only [List.length_append,List.length_singleton]
    omega
  · show s.remainingFiles-1 ≤ _
    omega

/-- Once every line has come back, the lines are the answers to the names, in order. -/
theorem Ok.read_eq (h : s.Ok md5sum) (hr : s.remainingFiles = 0) :
    s.read = (names s.sent).map md5sum := by
  obtain ⟨taken,ha⟩ := h.answers
  have hrem := h.remaining
  have hpre : s.read <+: (names s.sent).map md5sum := by
    rw [ha.sent,names_append,List.map_append,← ha.lines,List.append_assoc]
    exact List.prefix_append _ _
  apply hpre.eq_of_length
  rw [List.length_map]
  omega

/-- A slave with names to answer has written a line or has a message to take. -/
theorem Ok.busy (h : s.Ok md5sum) (hr : 0 < s.remainingFiles) :
    s.ready = true ∨ (s.take md5sum).isSome = true := by
  unfold Slave.ready Slave.take
  cases he : s.exited with
  | true => exact Or.inl rfl
  | false =>
    cases ho : s.output with
    | cons line rest => exact Or.inl rfl
    | nil =>
      cases hi : s.input with
      | cons m rest =>
        apply Or.inr
        cases m <;> rfl
      | nil =>
        obtain ⟨taken,ha⟩ := h.answers
        have hl := congrArg List.length ha.lines
        have hrem := h.remaining
        rw [ha.sent,hi,List.append_nil] at hrem
        rw [ho,List.append_nil,List.length_map] at hl
        omega

end Slave

namespace Distribution
variable {d d' : Distribution α} {s : Slave α} {i k : Fin numOfSlaves} {is : List (Fin numOfSlaves)}
  {fork : Fin numOfSlaves → ℤ} {files : List α} {ls : List Actor} {a : Actor}

@[simp] theorem setSlave_self : (d.setSlave i s).slaves i = s := by
  unfold setSlave
  exact Function.update_self i s d.slaves

theorem setSlave_of_ne (h : k ≠ i) : (d.setSlave i s).slaves k = d.slaves k := by
  unfold setSlave
  exact Function.update_of_ne h s d.slaves

theorem forall_setSlave {P : Fin numOfSlaves → Slave α → Prop} (hi : P i s)
    (h : ∀ k, k ≠ i → P k (d.slaves k)) (k : Fin numOfSlaves) : P k ((d.setSlave i s).slaves k) := by
  by_cases hk : k = i
  · subst hk
    rwa [setSlave_self]
  · rw [setSlave_of_ne hk]
    exact h k hk

def given (d : Distribution α) (i : Fin numOfSlaves) : List α := names (d.slaves i).sent

structure Ok (md5sum : α → Line) (d : Distribution α) : Prop where
  slaves : ∀ i, (d.slaves i).Ok md5sum
  distributed : d.distributedFiles ≤ d.files.length
  once : d.written.map Prod.snd = d.files.take d.distributedFiles
  routed : ∀ i, d.given i = (d.written.filter (fun w => w.1 = i)).map Prod.snd
  given : ∑ i, (d.given i).length = d.distributedFiles
  read : ∑ i, (d.slaves i).read.length = d.finishedFiles
  stopped : ∀ i, (d.slaves i).pid = 0 → ¬ d.FilesLeft

theorem filesLeft_iff : d.FilesLeft ↔ d.distributedFiles < d.files.length := by
  unfold FilesLeft
  omega

theorem sum_setSlave (g : Slave α → ℕ) :
    ∑ j, g ((d.setSlave i s).slaves j)+g (d.slaves i) = ∑ j, g (d.slaves j)+g s := by
  rw [← Finset.add_sum_erase _ _ (Finset.mem_univ i),setSlave_self,
    ← Finset.add_sum_erase _ (fun j => g (d.slaves j)) (Finset.mem_univ i)]
  have h : ∑ j ∈ Finset.univ.erase i, g ((d.setSlave i s).slaves j) =
      ∑ j ∈ Finset.univ.erase i, g (d.slaves j) := by
    apply Finset.sum_congr rfl
    intro j hj
    rw [setSlave_of_ne (Finset.ne_of_mem_erase hj)]
  omega

/-- The names that are out equal the names that are back and those that remain. -/
theorem Ok.balance (h : d.Ok md5sum) :
    (d.distributedFiles : ℤ) = d.finishedFiles+∑ i, (d.slaves i).remainingFiles := by
  have hr : ∀ i, (d.slaves i).remainingFiles = (d.given i).length-(d.slaves i).read.length :=
    fun i => (h.slaves i).remaining
  simp only [hr,Finset.sum_sub_distrib]
  rw [← h.given,← h.read]
  push_cast
  omega

/-! ### One slave changes -/

/-- A slave that changes without getting a name. -/
theorem Ok.setSlave (h : d.Ok md5sum) (hs : s.Ok md5sum) (hsent : names s.sent = d.given i)
    (hpid : s.pid = 0 → ¬ d.FilesLeft) {n : ℕ}
    (hn : n+(d.slaves i).read.length = d.finishedFiles+s.read.length) :
    Ok md5sum { d.setSlave i s with finishedFiles := n } := by
  have hgiven : ∀ k, (d.setSlave i s).given k = d.given k :=
    forall_setSlave (P := fun k s => names s.sent = d.given k) hsent (fun _ _ => rfl)
  constructor
  · exact forall_setSlave hs (fun k _ => h.slaves k)
  · exact h.distributed
  · exact h.once
  · intro k
    exact (hgiven k).trans (h.routed k)
  · exact (Finset.sum_congr rfl (fun k _ => congrArg List.length (hgiven k))).trans h.given
  · have hsum := sum_setSlave (d := d) (i := i) (s := s) (fun s => s.read.length)
    rw [h.read] at hsum
    show ∑ j, ((d.setSlave i s).slaves j).read.length = n
    omega
  · exact forall_setSlave (P := fun _ s => s.pid = 0 → ¬ d.FilesLeft) hpid (fun k _ => h.stopped k)

theorem writeFile_eq (hl : d.FilesLeft) : ∃ f, d.files[d.distributedFiles]? = some f ∧
    d.writeFile i = { d.setSlave i { (d.slaves i).write (file f) with
        remainingFiles := (d.slaves i).remainingFiles+1 } with
      distributedFiles := d.distributedFiles+1
      written := d.written++[(i,f)] } := by
  have hf := List.getElem?_eq_getElem (filesLeft_iff.mp hl)
  refine ⟨_,hf,?_⟩
  unfold Distribution.writeFile
  rw [hf]

theorem Ok.writeFile (h : d.Ok md5sum) (hl : d.FilesLeft)
    (hr : (d.slaves i).remainingFiles < batchSize) : (d.writeFile i).Ok md5sum := by
  obtain ⟨f,hf,he⟩ := writeFile_eq (i := i) hl
  have hpid : (d.slaves i).pid ≠ 0 := fun hp => h.stopped i hp hl
  rw [he]
  generalize hsdef : { (d.slaves i).write (file f) with
    remainingFiles := (d.slaves i).remainingFiles+1 } = s
  have hs : s.Ok md5sum := hsdef ▸ (h.slaves i).writeFile hpid hr f
  have hsent : names s.sent = d.given i++[f] := by
    rw [← hsdef]
    exact names_append
  have hread : s.read = (d.slaves i).read := by
    rw [← hsdef]
    rfl
  constructor
  · exact forall_setSlave hs (fun k _ => h.slaves k)
  · exact filesLeft_iff.mp hl
  · show (d.written++[(i,f)]).map Prod.snd = d.files.take (d.distributedFiles+1)
    rw [List.map_append,h.once,List.take_add_one,hf]
    rfl
  · refine forall_setSlave (P := fun k s => names s.sent =
      ((d.written++[(i,f)]).filter (fun w : Fin numOfSlaves × α => w.1 = k)).map Prod.snd) ?_ ?_
    · rw [List.filter_append,List.map_append,← h.routed i,hsent]
      simp
    · intro k hk
      rw [List.filter_append,List.map_append,← h.routed k]
      simp [Distribution.given,Ne.symm hk]
  · have hsum := sum_setSlave (d := d) (i := i) (s := s) (fun s => (names s.sent).length)
    have hgiven : ∑ j, (names (d.slaves j).sent).length = d.distributedFiles := h.given
    have hold : names (d.slaves i).sent = d.given i := rfl
    rw [hgiven,hsent,hold,List.length_append,List.length_singleton] at hsum
    show ∑ j, (names ((d.setSlave i s).slaves j).sent).length = d.distributedFiles+1
    omega
  · have hsum := sum_setSlave (d := d) (i := i) (s := s) (fun s => s.read.length)
    rw [h.read,hread] at hsum
    show ∑ j, ((d.setSlave i s).slaves j).read.length = d.finishedFiles
    omega
  · refine forall_setSlave (P := fun _ s => s.pid = 0 →
      ¬ FilesLeft { d with distributedFiles := d.distributedFiles+1 }) ?_ ?_
    · intro hp
      rw [← hsdef] at hp
      exact absurd hp hpid
    · intro k _ hp
      exact absurd hl (h.stopped k hp)

def SameOutside (is : List (Fin numOfSlaves)) (d d' : Distribution α) : Prop :=
  ∀ k, k ∉ is → d'.slaves k = d.slaves k

/-- A pass over the slaves, from what it does for one of them. A slave is as it was until
its turn comes, and as it was left afterwards. -/
theorem pass (turn : Distribution α → Fin numOfSlaves → Distribution α)
    (I : Distribution α → Prop) (P : Slave α → Prop) (Q : Slave α → Slave α → Prop)
    (hturn : ∀ d i, I d → P (d.slaves i) → I (turn d i) ∧ SameOutside [i] d (turn d i) ∧
      Q (d.slaves i) ((turn d i).slaves i)) (hnd : is.Nodup) (hd : I d)
    (hP : ∀ i ∈ is, P (d.slaves i)) : I (is.foldl turn d) ∧ SameOutside is d (is.foldl turn d) ∧
      ∀ i ∈ is, Q (d.slaves i) ((is.foldl turn d).slaves i) := by
  induction is generalizing d with
  | nil => exact ⟨hd,fun _ _ => rfl,fun i hi => (by cases hi)⟩
  | cons i is ih =>
    obtain ⟨hi,hnd⟩ := List.nodup_cons.mp hnd
    obtain ⟨hI,hsame,hQ⟩ := hturn d i hd (hP i List.mem_cons_self)
    have hother : ∀ k ∈ is, (turn d i).slaves k = d.slaves k :=
      fun k hk => hsame k (fun he => hi (List.mem_singleton.mp he ▸ hk))
    obtain ⟨hI',hsame',hQ'⟩ := ih hnd hI (fun k hk => by
      rw [hother k hk]
      exact hP k (List.mem_cons_of_mem _ hk))
    refine ⟨hI',fun k hk => ?_,fun k hk => ?_⟩
    · have hki : k ∉ [i] := fun he => hk (List.mem_singleton.mp he ▸ List.mem_cons_self)
      exact (hsame' k (fun he => hk (List.mem_cons_of_mem _ he))).trans (hsame k hki)
    · rcases List.mem_cons.mp hk with rfl | hk
      · rw [List.foldl_cons,hsame' k hi]
        exact hQ
      · rw [← hother k hk]
        exact hQ' k hk

theorem SameOutside.trans {d₁ d₂ d₃ : Distribution α} (h : SameOutside is d₁ d₂)
    (h' : SameOutside is d₂ d₃) : SameOutside is d₁ d₃ :=
  fun k hk => (h' k hk).trans (h k hk)

/-! ### The parts of the loop -/

/-- A batch is begun for a slave without names to answer only, and is never more than what
such a slave may hold. -/
theorem distributeBatch_spec {j : ℕ} {distributingBatch : Bool} (h : d.Ok md5sum)
    (hj : j ≤ batchSize)
    (hb : distributingBatch = true → (d.slaves i).remainingFiles+j ≤ batchSize) :
    (distributeBatch i j distributingBatch d).Ok md5sum ∧
      SameOutside [i] d (distributeBatch i j distributingBatch d) ∧
      ((distributeBatch i j distributingBatch d).given i ≠ d.given i → distributingBatch = false →
        (d.slaves i).remainingFiles = 0) := by
  induction j generalizing d distributingBatch with
  | zero => exact ⟨h,fun _ _ => rfl,fun hne => absurd rfl hne⟩
  | succ j ih =>
    unfold distributeBatch
    by_cases hl : d.FilesLeft
    · rw [if_pos hl]
      by_cases hc : (d.slaves i).remainingFiles = 0 ∨ distributingBatch = true
      · rw [if_pos hc]
        have hroom : (d.slaves i).remainingFiles+(j+1 : ℕ) ≤ batchSize := by
          rcases hc with hc | hc
          · rw [hc,zero_add]
            exact_mod_cast hj
          · exact hb hc
        obtain ⟨f,-,he⟩ := writeFile_eq (i := i) hl
        have hrem : ((d.writeFile i).slaves i).remainingFiles = (d.slaves i).remainingFiles+1 := by
          rw [he]
          show ((d.setSlave i _).slaves i).remainingFiles = _
          rw [setSlave_self]
        have hsame : SameOutside [i] d (d.writeFile i) := by
          intro k hk
          rw [he]
          exact setSlave_of_ne (fun hki => hk (List.mem_singleton.mpr hki))
        push_cast at hroom
        have hfull : (d.slaves i).remainingFiles < batchSize := by omega
        obtain ⟨hok,hout,-⟩ := ih (h.writeFile hl hfull) (by omega) (fun _ => by omega)
        refine ⟨hok,hsame.trans hout,fun _ hf => hc.resolve_right (fun ht => ?_)⟩
        rw [hf] at ht
        cases ht
      · rw [if_neg hc]
        obtain ⟨hr,hf⟩ := not_or.mp hc
        exact ih h (by omega) (fun ht => absurd ht hf)
    · rw [if_neg hl]
      exact ⟨h,fun _ _ => rfl,fun hne => absurd rfl hne⟩

theorem distributeTo_spec (h : d.Ok md5sum) (hp : (d.slaves i).pid ≠ 0) :
    (d.distributeTo i).Ok md5sum ∧ SameOutside [i] d (d.distributeTo i) ∧
      (names ((d.distributeTo i).slaves i).sent ≠ names (d.slaves i).sent →
        (d.slaves i).remainingFiles = 0) := by
  unfold distributeTo
  by_cases hl : d.FilesLeft
  · rw [if_pos hl]
    obtain ⟨hok,hsame,hgiven⟩ := distributeBatch_spec (i := i) h le_rfl
      (fun hx : false = true => (by cases hx))
    exact ⟨hok,hsame,fun hne => hgiven hne rfl⟩
  · rw [if_neg hl]
    have hsent : names (d.slaves i).stopSlave.sent = d.given i := by
      unfold Distribution.given Slave.stopSlave Slave.write
      rw [names_append,names_stop,List.append_nil]
    refine ⟨h.setSlave ((h.slaves i).stopSlave hp) hsent (fun _ => hl) rfl,?_,?_⟩
    · exact fun k hk => setSlave_of_ne (fun he => hk (List.mem_singleton.mpr he))
    · rw [setSlave_self]
      exact fun hne => absurd hsent hne

theorem distributeFiles_spec (h : d.Ok md5sum) (hl : d.FilesLeft) :
    d.distributeFiles.Ok md5sum ∧
      ∀ i, d.distributeFiles.given i ≠ d.given i → (d.slaves i).remainingFiles = 0 := by
  obtain ⟨hok,-,hgiven⟩ := pass distributeTo (Ok md5sum) (fun s => s.pid ≠ 0)
    (fun s s' => names s'.sent ≠ names s.sent → s.remainingFiles = 0)
    (fun _ _ => distributeTo_spec) (List.nodup_finRange numOfSlaves) h
    (fun i _ hx => h.stopped i hx hl)
  exact ⟨hok,fun i => hgiven i (List.mem_finRange i)⟩

theorem listenTo_spec (hline : ∀ f, md5sum f ≠ []) (h : d.Ok md5sum) :
    (d.listenTo i).Ok md5sum ∧ SameOutside [i] d (d.listenTo i) ∧
      names ((d.listenTo i).slaves i).sent = names (d.slaves i).sent := by
  have hi := h.slaves i
  unfold listenTo
  obtain ⟨-,hr⟩ | ⟨line,rest,ho,hr⟩ := Slave.readLine_cases hi hline
  · rw [hr]
    refine ⟨h.setSlave hi rfl (h.stopped i) rfl,?_,?_⟩
    · exact fun k hk => setSlave_of_ne (fun he => hk (List.mem_singleton.mpr he))
    · show names ((d.setSlave i _).slaves i).sent = _
      rw [setSlave_self]
  · rw [hr]
    refine ⟨h.setSlave (hi.readLine ho) rfl (h.stopped i) ?_,?_,?_⟩
    · simp only [List.length_append,List.length_singleton]
      omega
    · exact fun k hk => setSlave_of_ne (fun he => hk (List.mem_singleton.mpr he))
    · show names ((d.setSlave i _).slaves i).sent = _
      rw [setSlave_self]

theorem slaveListener_spec (hline : ∀ f, md5sum f ≠ []) (h : d.Ok md5sum) :
    d.slaveListener.Ok md5sum ∧ ∀ i, d.slaveListener.given i = d.given i := by
  obtain ⟨hok,hsame,hgiven⟩ := pass listenTo (Ok md5sum) (fun _ => True)
    (fun s s' => names s'.sent = names s.sent) (fun _ _ h _ => listenTo_spec hline h)
    ((List.nodup_finRange numOfSlaves).filter (fun i => (d.slaves i).ready)) h
    (fun _ _ => trivial)
  refine ⟨hok,fun i => ?_⟩
  by_cases hi : i ∈ (List.finRange numOfSlaves).filter (fun i => (d.slaves i).ready)
  · exact hgiven i hi
  · exact congrArg (fun s => names (Slave.sent s)) (hsame i hi)

theorem stopOne_spec (h : d.Ok md5sum ∧ ¬ d.FilesLeft) :
    ((d.stopOne i).Ok md5sum ∧ ¬ (d.stopOne i).FilesLeft) ∧ SameOutside [i] d (d.stopOne i) ∧
      (((d.stopOne i).slaves i).pid = 0 ∧
        names ((d.stopOne i).slaves i).sent = names (d.slaves i).sent) := by
  unfold stopOne
  by_cases hp : (d.slaves i).pid ≠ 0
  · rw [if_pos hp,setSlave_self]
    have hsent : names (d.slaves i).stopSlave.sent = d.given i := by
      unfold Distribution.given Slave.stopSlave Slave.write
      rw [names_append,names_stop,List.append_nil]
    refine ⟨⟨h.1.setSlave ((h.1.slaves i).stopSlave hp) hsent (fun _ => h.2) rfl,h.2⟩,?_,rfl,hsent⟩
    exact fun k hk => setSlave_of_ne (fun he => hk (List.mem_singleton.mpr he))
  · rw [if_neg hp]
    exact ⟨h,fun _ _ => rfl,not_not.mp hp,rfl⟩

theorem stopSlaves_spec (h : d.Ok md5sum) (hl : ¬ d.FilesLeft) :
    d.stopSlaves.Ok md5sum ∧
      ∀ i, (d.stopSlaves.slaves i).pid = 0 ∧ d.stopSlaves.given i = d.given i := by
  obtain ⟨hok,-,hgiven⟩ := pass stopOne (fun d => d.Ok md5sum ∧ ¬ d.FilesLeft) (fun _ => True)
    (fun s s' => s'.pid = 0 ∧ names s'.sent = names s.sent) (fun _ _ h _ => stopOne_spec h)
    (List.nodup_finRange numOfSlaves) ⟨h,hl⟩ (fun _ _ => trivial)
  exact ⟨hok.1,fun i => hgiven i (List.mem_finRange i)⟩

/-! ### Runs -/

/-- Between the parts of the loop. While the application listens a line is missing, and once
it has stopped the slaves every line is back. -/
structure Sound (md5sum : α → Line) (d : Distribution α) : Prop extends Ok md5sum d where
  missing : d.phase = .listening → d.finishedFiles < d.distributedFiles
  finished : d.phase = .stopped → d.finishedFiles = d.files.length ∧ ∀ i, (d.slaves i).pid = 0

theorem Ok.withPhase (h : d.Ok md5sum) (p : Phase) : Ok md5sum { d with phase := p } :=
  ⟨h.slaves,h.distributed,h.once,h.routed,h.given,h.read,h.stopped⟩

theorem Ok.finished_le (h : d.Ok md5sum) : d.finishedFiles ≤ d.distributedFiles := by
  have hb := h.balance
  have hn : 0 ≤ ∑ i, (d.slaves i).remainingFiles :=
    Finset.sum_nonneg (fun i _ => (h.slaves i).nonneg)
  omega

structure Grows (d d' : Distribution α) : Prop where
  files : d'.files = d.files
  finished : d'.finishedFiles = d.finishedFiles
  distributed : d.distributedFiles ≤ d'.distributedFiles

theorem Grows.refl (d : Distribution α) : Grows d d := ⟨rfl,rfl,le_rfl⟩

theorem Grows.trans {d₁ d₂ d₃ : Distribution α} (h : Grows d₁ d₂) (h' : Grows d₂ d₃) : Grows d₁ d₃ :=
  ⟨h'.files.trans h.files,h'.finished.trans h.finished,h.distributed.trans h'.distributed⟩

theorem foldl_grows {turn : Distribution α → Fin numOfSlaves → Distribution α}
    (hturn : ∀ d i, Grows d (turn d i)) (is : List (Fin numOfSlaves)) (d : Distribution α) :
    Grows d (is.foldl turn d) :=
  List.foldlRecOn is turn (Grows.refl d) (fun d' h i _ => h.trans (hturn d' i))

theorem stopOne_grows (d : Distribution α) (i : Fin numOfSlaves) : Grows d (d.stopOne i) := by
  unfold stopOne
  split
  · exact ⟨rfl,rfl,le_rfl⟩
  · exact Grows.refl d

theorem distributeBatch_grows (i : Fin numOfSlaves) (j : ℕ) (b : Bool) (d : Distribution α) :
    Grows d (distributeBatch i j b d) := by
  induction j generalizing d b with
  | zero => exact Grows.refl d
  | succ j ih =>
    unfold distributeBatch
    by_cases hl : d.FilesLeft
    · rw [if_pos hl]
      split
      · obtain ⟨f,-,he⟩ := writeFile_eq (i := i) hl
        have hw : Grows d (d.writeFile i) := by
          rw [he]
          exact ⟨rfl,rfl,Nat.le_succ _⟩
        exact hw.trans (ih true _)
      · exact ih b d
    · rw [if_neg hl]
      exact Grows.refl d

theorem distributeTo_grows (d : Distribution α) (i : Fin numOfSlaves) : Grows d (d.distributeTo i) := by
  unfold distributeTo
  split
  · exact distributeBatch_grows i batchSize false d
  · exact ⟨rfl,rfl,le_rfl⟩

/-- With all answers in, the first slave gets a name. -/
theorem distributeFiles_advances (h : d.Ok md5sum) (hl : d.FilesLeft) :
    d.distributeFiles.finishedFiles < d.distributeFiles.distributedFiles := by
  have hgrows : Grows d d.distributeFiles := foldl_grows distributeTo_grows _ d
  rcases lt_or_eq_of_le h.finished_le with hlt | heq
  · rw [hgrows.finished]
    exact hlt.trans_le hgrows.distributed
  · have hsum : ∑ i, (d.slaves i).remainingFiles = 0 := by
      have := h.balance
      omega
    have hzero := (Finset.sum_eq_zero_iff_of_nonneg (fun i _ => (h.slaves i).nonneg)).mp hsum 0
      (Finset.mem_univ 0)
    have hfirst : Grows (d.writeFile 0) d.distributeFiles := by
      have hto : d.distributeTo 0 = distributeBatch 0 1 true (d.writeFile 0) := by
        unfold distributeTo
        rw [if_pos hl]
        show distributeBatch 0 (1+1) false d = _
        rw [distributeBatch,if_pos hl,if_pos (Or.inl hzero)]
      have hrest : Grows (d.distributeTo 0) d.distributeFiles :=
        foldl_grows distributeTo_grows [1,2,3] (d.distributeTo 0)
      rw [hto] at hrest
      exact (distributeBatch_grows 0 1 true _).trans hrest
    obtain ⟨f,-,he⟩ := writeFile_eq (i := 0) hl
    rw [he] at hfirst
    rw [hfirst.finished]
    show d.finishedFiles < _
    rw [heq]
    exact hfirst.distributed

theorem main_cases (h : d.main = some d') :
    (d.phase = .head ∧ d.finishedFiles ≠ d.files.length ∧ d' =
      { if d.distributedFiles ≠ d.files.length then d.distributeFiles else d with
        phase := .listening }) ∨
    (d.phase = .head ∧ d.finishedFiles = d.files.length ∧
      d' = { d.stopSlaves with phase := .stopped }) ∨
    (d.phase = .listening ∧ d' = { d.slaveListener with phase := .head }) := by
  unfold main at h
  cases hp : d.phase with
  | head =>
    simp only [hp] at h
    split at h
    · rename_i hn
      exact Or.inl ⟨rfl,hn,(Option.some.inj h).symm⟩
    · rename_i hn
      exact Or.inr (Or.inl ⟨rfl,not_not.mp hn,(Option.some.inj h).symm⟩)
  | listening =>
    simp only [hp] at h
    split at h
    · exact Or.inr (Or.inr ⟨rfl,(Option.some.inj h).symm⟩)
    · cases h
  | stopped =>
    simp only [hp] at h
    cases h

/-- Only the application gives names, and only to slaves that have none to answer. -/
theorem step_sound (hline : ∀ f, md5sum f ≠ []) (h : d.Sound md5sum)
    (hs : step md5sum d a = some d') : d'.Sound md5sum ∧
      ∀ i, d'.given i ≠ d.given i → (d.slaves i).remainingFiles = 0 := by
  cases a with
  | slave i =>
    obtain ⟨s,ht,rfl⟩ := Option.map_eq_some_iff.mp hs
    obtain ⟨hok,hsent,hread,hpid,-⟩ := (h.slaves i).take ht
    have hgiven : names s.sent = d.given i := congrArg names hsent
    refine ⟨⟨h.setSlave hok hgiven (fun hp => h.stopped i (hpid ▸ hp)) (by rw [hread]),h.missing,?_⟩,?_⟩
    · intro hp
      obtain ⟨hfin,hall⟩ := h.finished hp
      exact ⟨hfin,forall_setSlave (P := fun _ s => s.pid = 0) (hpid.trans (hall i))
        (fun k _ => hall k)⟩
    · intro k hk
      exact absurd (forall_setSlave (P := fun k s => names s.sent = d.given k) hgiven
        (fun _ _ => rfl) k) hk
  | main =>
    obtain ⟨-,hne,rfl⟩ | ⟨-,hfin,rfl⟩ | ⟨-,rfl⟩ := main_cases hs
    · by_cases hl : d.distributedFiles ≠ d.files.length
      · rw [if_pos hl]
        have hlt := filesLeft_iff.mpr (lt_of_le_of_ne h.distributed hl)
        obtain ⟨hok,hgiven⟩ := distributeFiles_spec h.toOk hlt
        exact ⟨⟨hok.withPhase _,fun _ => distributeFiles_advances h.toOk hlt,
          fun hp => (by cases hp)⟩,hgiven⟩
      · rw [if_neg hl]
        have hle := h.toOk.finished_le
        refine ⟨⟨h.toOk.withPhase _,fun _ => ?_,fun hp => (by cases hp)⟩,fun i hne => absurd rfl hne⟩
        exact lt_of_le_of_ne hle (fun he => hne (he.trans (not_not.mp hl)))
    · have hl : ¬ d.FilesLeft := by
        rw [filesLeft_iff]
        have := h.toOk.finished_le
        omega
      obtain ⟨hok,hall⟩ := stopSlaves_spec h.toOk hl
      have hgrows : Grows d d.stopSlaves := foldl_grows stopOne_grows _ d
      refine ⟨⟨hok.withPhase _,fun hp => (by cases hp),fun _ => ⟨?_,fun i => (hall i).1⟩⟩,
        fun i hne => absurd (hall i).2 hne⟩
      show d.stopSlaves.finishedFiles = d.stopSlaves.files.length
      rw [hgrows.finished,hgrows.files,hfin]
    · obtain ⟨hok,hgiven⟩ := slaveListener_spec hline h.toOk
      exact ⟨⟨hok.withPhase _,fun hp => (by cases hp),fun hp => (by cases hp)⟩,
        fun i hne => absurd (hgiven i) hne⟩

theorem listenTo_files (d : Distribution α) (i : Fin numOfSlaves) : (d.listenTo i).files = d.files := by
  unfold listenTo
  cases (d.slaves i).readLine with
  | mk line s => cases line <;> rfl

theorem step_files (hs : step md5sum d a = some d') : d'.files = d.files := by
  cases a with
  | slave i =>
    obtain ⟨s,-,rfl⟩ := Option.map_eq_some_iff.mp hs
    rfl
  | main =>
    obtain ⟨-,-,rfl⟩ | ⟨-,-,rfl⟩ | ⟨-,rfl⟩ := main_cases hs
    · by_cases hl : d.distributedFiles ≠ d.files.length
      · rw [if_pos hl]
        exact (foldl_grows distributeTo_grows _ d).files
      · rw [if_neg hl]
    · exact (foldl_grows stopOne_grows _ d).files
    · exact List.foldlRecOn (motive := fun d' => d'.files = d.files) _ listenTo rfl
        (fun d' h i _ => (listenTo_files d' i).trans h)

theorem createSlaves_sound (hfork : ∀ i, fork i ≠ 0) : (createSlaves fork files).Sound md5sum := by
  refine ⟨⟨fun i => ?_,Nat.zero_le _,rfl,fun _ => rfl,?_,?_,fun i hp => absurd hp (hfork i)⟩,?_,?_⟩
  · refine ⟨⟨[],rfl,rfl,by simp [createSlaves]⟩,?_,rfl,Int.natCast_nonneg _⟩
    show [] = [].map file++(if fork i = 0 then [stop] else [])
    rw [if_neg (hfork i)]
    rfl
  · exact Finset.sum_const_zero
  · exact Finset.sum_const_zero
  · intro hp
    cases hp
  · intro hp
    cases hp

/-- The application does not wait for ever: while it listens, a slave is ready or has a
message to take. -/
theorem Sound.not_stuck (h : d.Sound md5sum) (hp : d.phase = .listening) :
    ∃ i, (d.slaves i).ready = true ∨ ((d.slaves i).take md5sum).isSome = true := by
  by_contra hnone
  have hzero : ∑ i, (d.slaves i).remainingFiles = 0 := by
    apply Finset.sum_eq_zero
    intro i _
    have hn := (h.slaves i).nonneg
    have hpos : ¬ 0 < (d.slaves i).remainingFiles :=
      fun hpos => hnone ⟨i,(h.slaves i).busy hpos⟩
    omega
  have hb := h.toOk.balance
  have hm := h.missing hp
  omega

structure Protocol (md5sum : α → Line) (files : List α) (d : Distribution α) : Prop where
  /-- The names go out once each, in list order. -/
  once : d.written.map Prod.snd = files.take d.distributedFiles
  routed : ∀ i, d.given i = (d.written.filter (fun w => w.1 = i)).map Prod.snd
  remaining : ∀ i, 0 ≤ (d.slaves i).remainingFiles ∧ (d.slaves i).remainingFiles ≤ batchSize
  balance : (d.distributedFiles : ℤ) = d.finishedFiles+∑ i, (d.slaves i).remainingFiles
  /-- At most one stop, behind all names. -/
  stops : ∀ i, (d.slaves i).sent = (d.given i).map file ∨
    (d.slaves i).sent = (d.given i).map file++[stop]
  stopped : d.phase = .stopped → d.written.map Prod.snd = files ∧
    d.finishedFiles = files.length ∧ ∀ i, (d.slaves i).sent = (d.given i).map file++[stop] ∧
      (d.slaves i).read = (d.given i).map md5sum

theorem Sound.protocol (h : d.Sound md5sum) : d.Protocol md5sum d.files := by
  have hstops : ∀ i, (d.slaves i).sent =
      (d.given i).map file++(if (d.slaves i).pid = 0 then [stop] else []) :=
    fun i => (h.slaves i).stops
  refine ⟨h.once,h.routed,fun i => ⟨(h.slaves i).nonneg,(h.slaves i).batch⟩,h.balance,?_,?_⟩
  · intro i
    rw [hstops i]
    by_cases hp : (d.slaves i).pid = 0
    · rw [if_pos hp]
      exact Or.inr rfl
    · rw [if_neg hp,List.append_nil]
      exact Or.inl rfl
  · intro hp
    obtain ⟨hfin,hall⟩ := h.finished hp
    have hle := h.toOk.finished_le
    have hlen : d.distributedFiles = d.files.length := le_antisymm h.distributed (hfin ▸ hle)
    have hsum : ∑ i, (d.slaves i).remainingFiles = 0 := by
      have := h.balance
      omega
    have hzero := (Finset.sum_eq_zero_iff_of_nonneg (fun i _ => (h.slaves i).nonneg)).mp hsum
    refine ⟨?_,hfin,fun i => ⟨?_,(h.slaves i).read_eq (hzero i (Finset.mem_univ i))⟩⟩
    · rw [h.once,hlen,List.take_length]
    · rw [hstops i,if_pos (hall i)]

def SoundFor (md5sum : α → Line) (files : List α) (d : Distribution α) : Prop :=
  d.Sound md5sum ∧ d.files = files

theorem step_soundFor (hline : ∀ f, md5sum f ≠ []) (h : d.SoundFor md5sum files)
    (hs : step md5sum d a = some d') : d'.SoundFor md5sum files :=
  ⟨(step_sound hline h.1 hs).1,(step_files hs).trans h.2⟩

theorem SoundFor.protocol (h : d.SoundFor md5sum files) : d.Protocol md5sum files := h.2 ▸ h.1.protocol

theorem run_soundFor (hfork : ∀ i, fork i ≠ 0) (hline : ∀ f, md5sum f ≠ [])
    (hr : run (step md5sum) (createSlaves fork files) ls = some d) : d.SoundFor md5sum files :=
  invariant (fun _ _ _ => step_soundFor hline) ⟨createSlaves_sound hfork,rfl⟩ hr

def BatchesWhenEmpty (md5sum : α → Line) (d : Distribution α) (a : Actor) : Prop :=
  ∀ d', step md5sum d a = some d' → ∀ i, d'.given i ≠ d.given i → (d.slaves i).remainingFiles = 0

/-- The protocol holds all along every run, in whatever order the slaves answer. -/
theorem distribution_protocol (hfork : ∀ i, fork i ≠ 0) (hline : ∀ f, md5sum f ≠ [])
    (ls : List Actor) : Always (step md5sum) (Protocol md5sum files) (createSlaves fork files) ls ∧
      Along (step md5sum) (BatchesWhenEmpty md5sum) (createSlaves fork files) ls := by
  have hs : (createSlaves fork files).SoundFor md5sum files := ⟨createSlaves_sound hfork,rfl⟩
  constructor
  · exact always_of_invariant (fun _ _ _ => step_soundFor hline) (fun _ => SoundFor.protocol) hs ls
  · exact along_of_invariant (fun _ _ _ => step_soundFor hline)
      (fun _ _ h _ hx => (step_sound hline h.1 hx).2) hs ls

/-- Three files: the second slave answers before the first one does, which has two. -/
def threeFiles : List Actor := [.main,.slave 1,.slave 0,.main,.main,.slave 0,.main,.main]

theorem distribution_protocol_three :
    Always (step (fun _ => [10])) (Protocol (fun _ => [10]) ['a','b','c'])
      (createSlaves (fun _ => 1) ['a','b','c']) threeFiles ∧
    Along (step (fun _ => [10])) (BatchesWhenEmpty (fun _ => [10]))
      (createSlaves (fun _ => 1) ['a','b','c']) threeFiles ∧
    ((run (step (fun _ => [10])) (createSlaves (fun _ => 1) ['a','b','c']) threeFiles).map
      (fun d => (d.phase,d.written))) = some (.stopped,[(0,'a'),(0,'b'),(1,'c')]) := by
  have hfork : ∀ i : Fin numOfSlaves, (fun _ => (1 : ℤ)) i ≠ 0 := by decide
  rw [← and_assoc]
  exact ⟨distribution_protocol hfork (fun _ => List.cons_ne_nil _ _) threeFiles,by decide⟩

end Distribution
end ComplexOS.Hashing
