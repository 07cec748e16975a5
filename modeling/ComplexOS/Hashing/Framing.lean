import ComplexOS.Hashing.DistributionRuns
import Mathlib.Data.List.TakeWhile

/-! # File names and stop codes on one stream of bytes

The application writes a name with its terminator, and a stop as a byte of its own with a
terminator. The slave collects bytes up to a terminator and tells a stop by the first
byte, so that a name which begins with that byte is taken for a stop.
-/
namespace ComplexOS.Hashing

def maxFilename : ℕ := 256
def stopCode : UInt8 := 5

/-- A name that the application can be given: a string that `stat` has found. -/
structure FileName where
  bytes : List UInt8
  nonempty : bytes ≠ []
  noNul : 0 ∉ bytes
  length_lt : bytes.length < maxFilename

/-- What `distributeFiles` and `stopSlave` put into the pipe. -/
def Message.bytes : Message FileName → List UInt8
  | .file f => f.bytes++[0]
  | .stop => [stopCode,0]

def stream (ms : List (Message FileName)) : List UInt8 := ms.flatMap Message.bytes

/-- What `system` makes of a command, and of what is left of the input: the command takes nothing
that is not there, and leaves the rest in its order. A command that does not come back, or
does not leave the slave alive, answers `none`. -/
structure Shell where
  system : List UInt8 → List UInt8 → Option (List UInt8)
  takes : ∀ command input rest, system command input = some rest → rest.Sublist input

def command (message : List UInt8) : List UInt8 := "md5sum ".toList.map Char.toUInt8++message

/-- The variables of the slave's `main`, and its standard input. `listened` are the strings that
`startSlaveListener` has been called on. -/
structure SlaveLoop where
  message : ℕ → UInt8
  current : ℕ
  running : Bool
  listened : List (List UInt8)
  input : List UInt8

namespace SlaveLoop

/-- The array is not initialised. -/
def start (message : ℕ → UInt8) (input : List UInt8) : SlaveLoop := ⟨message,0,true,[],input⟩

def cString (s : SlaveLoop) : List UInt8 :=
  ((List.range maxFilename).map s.message).takeWhile (fun c => c ≠ 0)

/-- `*current = c`, which fails outside of the array. -/
def put (s : SlaveLoop) (c : UInt8) : Option SlaveLoop :=
  if s.current < maxFilename then some { s with message := Function.update s.message s.current c }
  else none

/-- The command inherits the input. -/
def startSlaveListener (shell : Shell) (s : SlaveLoop) : Option SlaveLoop :=
  (shell.system (command s.cString) s.input).map fun input =>
    { s with listened := s.listened++[s.cString], input := input }

def finish (shell : Shell) (s : SlaveLoop) : Option SlaveLoop :=
  if s.message 0 ≠ stopCode then
    (s.startSlaveListener shell).map fun s => { s with current := 0 }
  else some { s with running := false }

/-- One character, and the end of the message if it is a terminator. With no input left the
slave waits. -/
def getchar (shell : Shell) (s : SlaveLoop) : Option SlaveLoop :=
  match s.input with
  | [] => none
  | c::cs => (put { s with input := cs } c).bind fun s =>
    if c ≠ 0 then some { s with current := s.current+1 } else s.finish shell

def loop (shell : Shell) : ℕ → SlaveLoop → Option SlaveLoop
  | 0, s => some s
  | n+1, s => if s.running then (s.getchar shell).bind (loop shell n) else some s

/-- The messages that the slave makes of its input are the names, and it ends. -/
def Serves (shell : Shell) (message : ℕ → UInt8) (input : List UInt8) (names : List FileName) :
    Prop :=
  ∃ n s, loop shell n (start message input) = some s ∧ s.running = false ∧
    s.listened = names.map FileName.bytes

/-- The commands of the names come back and leave the input alone, each at its turn. -/
def Leaves (shell : Shell) (names : List FileName) : Prop :=
  ∀ pre f post, names = pre++f::post →
    shell.system (command f.bytes) (stream (post.map .file++[.stop])) =
      some (stream (post.map .file++[.stop]))

variable {shell : Shell} {s t u : SlaveLoop} {pre cs rest : List UInt8} {c : UInt8} {n m : ℕ}
  {f : FileName} {names : List FileName}

structure Holds (s : SlaveLoop) (pre rest : List UInt8) : Prop where
  running : s.running = true
  current : s.current = pre.length
  message : (List.range pre.length).map s.message = pre
  input : s.input = rest

/-! ### The loop -/

theorem loop_ended (h : s.running = false) : loop shell n s = some s := by
  cases n with
  | zero => rfl
  | succ n => rw [loop,if_neg (by rw [h]; exact Bool.false_ne_true)]

theorem loop_cons (h : s.running = true) (hg : s.getchar shell = some t) :
    loop shell (n+1) s = loop shell n t := by
  rw [loop,if_pos h,hg]
  rfl

theorem loop_add (h : loop shell n s = some t) : loop shell (n+m) s = loop shell m t := by
  induction n generalizing s with
  | zero =>
    cases h
    rw [Nat.zero_add]
  | succ n ih =>
    cases hr : s.running with
    | false =>
      rw [loop_ended hr] at h
      cases h
      rw [loop_ended hr,loop_ended hr]
    | true =>
      rw [loop,if_pos hr] at h
      obtain ⟨u,hu,ht⟩ := Option.bind_eq_some_iff.mp h
      rw [Nat.add_right_comm,loop_cons hr hu]
      exact ih ht

/-- The end of the loop does not depend on where it is looked at. -/
theorem loop_end (h : ∀ m, loop shell (m+n) s = loop shell m t) (hs : loop shell m s = some u)
    (hu : u.running = false) : loop shell m t = some u := by
  rw [← h,loop_add hs,loop_ended hu]

/-! ### One message -/

theorem put_message (h : s.Holds pre rest) :
    (List.range (pre++[c]).length).map (Function.update s.message s.current c) = pre++[c] := by
  rw [List.length_append,List.length_singleton,List.range_succ,List.map_append,h.current]
  congr 1
  · rw [← h.message]
    simp only [List.length_map,List.length_range]
    apply List.map_congr_left
    intro i hi
    exact Function.update_of_ne (List.mem_range.mp hi).ne _ _
  · simp

/-- A character of a name is stored behind the ones before. -/
theorem getchar_of_ne (shell : Shell) (h : s.Holds pre (c::rest)) (hlt : pre.length < maxFilename)
    (hc : c ≠ 0) :
    ∃ t, s.getchar shell = some t ∧ t.Holds (pre++[c]) rest ∧ t.listened = s.listened := by
  unfold getchar put
  rw [h.input]
  simp only
  rw [if_pos (h.current ▸ hlt),Option.bind_some,if_pos hc]
  refine ⟨_,rfl,⟨h.running,?_,put_message h,rfl⟩,rfl⟩
  rw [List.length_append,h.current]
  rfl

theorem loop_append (shell : Shell) (h : s.Holds pre (cs++rest)) (h0 : 0 ∉ cs)
    (hlt : (pre++cs).length < maxFilename) :
    ∃ t, (∀ n, loop shell (n+cs.length) s = loop shell n t) ∧ t.Holds (pre++cs) rest ∧
      t.listened = s.listened := by
  induction cs generalizing s pre with
  | nil => exact ⟨s,fun _ => rfl,by rwa [List.append_nil],rfl⟩
  | cons c cs ih =>
    obtain ⟨hc,hcs⟩ := not_or.mp (fun hx => h0 (List.mem_cons.mpr hx))
    have hpre : pre.length < maxFilename := by
      rw [List.length_append] at hlt
      omega
    obtain ⟨t,ht,hh,hl⟩ := getchar_of_ne shell h hpre (Ne.symm hc)
    have happ : pre++c::cs = (pre++[c])++cs := by rw [List.append_assoc,List.singleton_append]
    rw [happ] at hlt
    obtain ⟨u,hu,hh,hl'⟩ := ih hh hcs hlt
    refine ⟨u,fun n => ?_,happ ▸ hh,hl'.trans hl⟩
    rw [List.length_cons,← Nat.add_assoc,loop_cons h.running ht]
    exact hu n

/-- At the terminator the array holds the whole message as a string. -/
theorem cString_of_holds (h : s.Holds pre rest) (h0 : 0 ∉ pre) (hlt : pre.length < maxFilename)
    (ht : t.message = Function.update s.message s.current 0) : t.cString = pre := by
  have hsplit : (List.range maxFilename).map t.message = pre++0::
      ((List.range (maxFilename-(pre.length+1))).map (fun i => t.message (pre.length+1+i))) := by
    have hlen : maxFilename = (pre.length+1)+(maxFilename-(pre.length+1)) := by omega
    have hput := put_message (c := 0) h
    rw [List.length_append,List.length_singleton] at hput
    rw [hlen,List.range_add,List.map_append,ht,hput,List.map_map,List.append_assoc,← hlen]
    rfl
  unfold cString
  rw [hsplit,List.takeWhile_append_of_pos]
  · simp
  · intro c hc
    exact decide_eq_true (fun hx => h0 (hx ▸ hc))

/-- The first byte decides at the terminator what the message was. -/
theorem getchar_zero (h : s.Holds pre (0::rest)) (h0 : 0 ∉ pre) (hlt : pre.length < maxFilename)
    (hne : pre ≠ []) :
    (pre.head? ≠ some stopCode ∧ s.getchar shell = (shell.system (command pre) rest).map (fun input =>
      ⟨Function.update s.message s.current 0,0,true,s.listened++[pre],input⟩)) ∨
    (pre.head? = some stopCode ∧ ∃ t, s.getchar shell = some t ∧ t.running = false ∧
      t.listened = s.listened) := by
  obtain ⟨c,cs,rfl⟩ := List.exists_cons_of_ne_nil hne
  have hfirst : Function.update s.message s.current 0 0 = c := by
    have hm := congrArg List.head? h.message
    rw [h.current,Function.update_of_ne (by simp)]
    simpa [List.range_succ_eq_map] using hm
  unfold getchar put
  rw [h.input]
  simp only
  rw [if_pos (h.current ▸ hlt),Option.bind_some,if_neg (not_not.mpr rfl)]
  unfold finish startSlaveListener
  by_cases hc : c = stopCode
  · rw [if_neg (not_not.mpr (hfirst.trans hc))]
    exact Or.inr ⟨congrArg some hc,_,rfl,rfl,rfl⟩
  · rw [if_pos (fun hx => hc (hfirst.symm.trans hx)),cString_of_holds h h0 hlt rfl,Option.map_map]
    refine Or.inl ⟨fun hx => hc (Option.some.inj hx),?_⟩
    rw [← h.running]
    rfl

/-- A message and its terminator. -/
theorem loop_message (shell : Shell) (h : s.Holds [] (cs++0::rest)) (h0 : 0 ∉ cs)
    (hlt : cs.length < maxFilename) (hne : cs ≠ []) : ∃ t, t.running = true ∧ t.listened = s.listened ∧
      (∀ n, loop shell (n+cs.length) s = loop shell n t) ∧
      ((cs.head? ≠ some stopCode ∧ t.getchar shell = (shell.system (command cs) rest).map
        (fun input => ⟨Function.update t.message t.current 0,0,true,s.listened++[cs],input⟩)) ∨
      (cs.head? = some stopCode ∧ ∃ u, t.getchar shell = some u ∧ u.running = false ∧
        u.listened = s.listened)) := by
  obtain ⟨t,ht,hh,hl⟩ := loop_append shell h h0 hlt
  rw [List.nil_append] at hh
  refine ⟨t,hh.running,hl,ht,?_⟩
  rw [← hl]
  exact getchar_zero hh h0 hlt hne

/-! ### Where the input goes -/

/-- The bytes that the messages so far have taken, terminators included. -/
def taken (s : SlaveLoop) : ℕ := (s.listened.map (fun m => m.length+1)).sum

theorem length_cString (h : s.message s.current = 0) (hlt : s.current < maxFilename) :
    s.cString.length ≤ s.current := by
  have hsplit : (List.range maxFilename).map s.message = (List.range s.current).map s.message++0::
      (List.range (maxFilename-(s.current+1))).map (fun i => s.message (s.current+1+i)) := by
    have hlen : maxFilename = s.current+1+(maxFilename-(s.current+1)) := by omega
    rw [hlen,List.range_add,List.map_append,List.range_succ,List.map_append,List.map_map,
      List.append_assoc,← hlen,← h]
    rfl
  unfold cString
  rw [hsplit,List.takeWhile_append]
  split
  · simp
  · exact (List.takeWhile_prefix _).length_le.trans (by simp)

/-- A character is taken once, and a stop takes two. -/
theorem getchar_taken (hr : s.running = true) (hg : s.getchar shell = some t) :
    (t.running = true ∧ t.taken+t.current+t.input.length ≤ s.taken+s.current+s.input.length) ∨
      (t.running = false ∧ t.taken+2 ≤ s.taken+s.current+s.input.length) := by
  unfold getchar at hg
  cases hi : s.input with
  | nil =>
    rw [hi] at hg
    cases hg
  | cons c cs =>
    rw [hi] at hg
    obtain ⟨p,hp,hg⟩ := Option.bind_eq_some_iff.mp hg
    unfold put at hp
    split at hp
    swap
    · cases hp
    rename_i hlt
    cases hp
    rw [List.length_cons]
    split at hg
    · cases hg
      refine Or.inl ⟨hr,?_⟩
      show s.taken+(s.current+1)+cs.length ≤ _
      omega
    · rename_i hc
      have hself : Function.update s.message s.current c s.current = 0 := by
        rw [Function.update_self]
        exact not_not.mp hc
      unfold finish at hg
      split at hg
      · obtain ⟨q,hq,rfl⟩ := Option.map_eq_some_iff.mp hg
        obtain ⟨rest,hrest,rfl⟩ := Option.map_eq_some_iff.mp hq
        have hsub := (shell.takes _ _ _ hrest).length_le
        refine Or.inl ⟨hr,?_⟩
        have hlen := length_cString (s := { s with
          input := cs, message := Function.update s.message s.current c }) hself hlt
        unfold taken
        simp only [List.map_append,List.sum_append,List.map_cons,List.map_nil,List.sum_cons,
          List.sum_nil]
        simp only at hsub hlen
        omega
      · rename_i hstop
        cases hg
        refine Or.inr ⟨rfl,?_⟩
        have hcurrent : s.current ≠ 0 := by
          intro h0
          have hx := not_not.mp hstop
          simp only [h0] at hx hself
          rw [hself] at hx
          exact absurd hx (by decide)
        show s.taken+2 ≤ _
        omega

theorem loop_taken (hr : s.running = true) (h : loop shell n s = some t) (ht : t.running = false) :
    t.taken+2 ≤ s.taken+s.current+s.input.length := by
  induction n generalizing s with
  | zero =>
    cases h
    rw [hr] at ht
    cases ht
  | succ n ih =>
    rw [loop,if_pos hr] at h
    obtain ⟨u,hu,hx⟩ := Option.bind_eq_some_iff.mp h
    obtain ⟨hru,hle⟩ | ⟨hru,hle⟩ := getchar_taken hr hu
    · exact (ih hru hx).trans hle
    · rw [loop_ended hru] at hx
      cases hx
      exact hle

/-! ### All of the names -/

theorem stream_cons : stream ((f::names).map .file++[.stop]) =
    f.bytes++0::stream (names.map .file++[.stop]) := by
  show (f.bytes++[0])++stream (names.map .file++[.stop]) = _
  rw [List.append_assoc,List.singleton_append]

theorem length_stream : (stream (names.map .file++[.stop])).length =
    ((names.map FileName.bytes).map (fun m => m.length+1)).sum+2 := by
  induction names with
  | nil => rfl
  | cons f names ih =>
    rw [stream_cons,List.length_append,List.length_cons,ih]
    simp only [List.map_cons,List.sum_cons]
    omega

theorem leaves_cons : Leaves shell (f::names) ↔
    shell.system (command f.bytes) (stream (names.map .file++[.stop])) =
      some (stream (names.map .file++[.stop])) ∧ Leaves shell names := by
  constructor
  · intro h
    exact ⟨h [] f names rfl,fun pre g post he => h (f::pre) g post (by rw [he,List.cons_append])⟩
  · rintro ⟨hf,h⟩ pre g post he
    cases pre with
    | nil =>
      cases he
      exact hf
    | cons x pre =>
      cases he
      exact h pre g post rfl

/-- The names are served from any state between two messages. -/
theorem loop_stream (h : s.Holds [] (stream (names.map .file++[.stop])))
    (hleaves : Leaves shell names) (hnames : ∀ f ∈ names, f.bytes.head? ≠ some stopCode) :
    ∃ n t, loop shell n s = some t ∧ t.running = false ∧
      t.listened = s.listened++names.map FileName.bytes := by
  induction names generalizing s with
  | nil =>
    have h : s.Holds [] ([stopCode]++0::[]) := h
    obtain ⟨t,hr,-,hloop,⟨hne,-⟩ | ⟨-,u,hu,hru,hlu⟩⟩ := loop_message shell h (by decide) (by decide)
      (by decide)
    · exact absurd rfl hne
    · refine ⟨1+[stopCode].length,u,?_,hru,?_⟩
      · rw [hloop,loop_cons hr hu]
        rfl
      · rw [hlu,List.map_nil,List.append_nil]
  | cons f names ih =>
    rw [stream_cons] at h
    obtain ⟨hsystem,hleaves⟩ := leaves_cons.mp hleaves
    obtain ⟨t,hr,-,hloop,⟨-,hg⟩ | ⟨heq,-⟩⟩ := loop_message shell h f.noNul f.length_lt f.nonempty
    · rw [hsystem] at hg
      have hnext : Holds ⟨Function.update t.message t.current 0,0,true,s.listened++[f.bytes],
        stream (names.map .file++[.stop])⟩ [] (stream (names.map .file++[.stop])) := ⟨rfl,rfl,rfl,rfl⟩
      obtain ⟨n,u,hu,hru,hlu⟩ := ih hnext hleaves
        (fun g hg => hnames g (List.mem_cons_of_mem _ hg))
      refine ⟨n+1+f.bytes.length,u,?_,hru,?_⟩
      · rw [hloop,loop_cons hr hg]
        exact hu
      · rw [hlu]
        simp
    · exact absurd heq (hnames f List.mem_cons_self)

/-- What is served has been left alone by all commands. -/
theorem serves_leaves (h : s.Holds [] (stream (names.map .file++[.stop])))
    (hs : loop shell n s = some u) (hru : u.running = false)
    (hlu : u.listened = s.listened++names.map FileName.bytes) :
    Leaves shell names ∧ ∀ f ∈ names, f.bytes.head? ≠ some stopCode := by
  induction names generalizing s n with
  | nil =>
    refine ⟨fun pre f post he => ?_,fun f hf => by cases hf⟩
    simp at he
  | cons f names ih =>
    rw [stream_cons] at h
    obtain ⟨t,hr,-,hloop,⟨hne,hg⟩ | ⟨-,v,hv,hrv,hlv⟩⟩ := loop_message shell h f.noNul f.length_lt f.nonempty
    · have ht := loop_end hloop hs hru
      cases n with
      | zero =>
        cases ht
        rw [hr] at hru
        cases hru
      | succ n =>
        rw [loop,if_pos hr,hg] at ht
        obtain ⟨v,hv,ht⟩ := Option.bind_eq_some_iff.mp ht
        obtain ⟨rest,hrest,rfl⟩ := Option.map_eq_some_iff.mp hv
        have htaken := loop_taken rfl ht hru
        have hsub := shell.takes _ _ _ hrest
        have hall : rest = stream (names.map .file++[.stop]) := by
          apply hsub.eq_of_length_le
          rw [length_stream]
          unfold taken at htaken
          rw [hlu] at htaken
          simp only [List.map_append,List.sum_append,List.map_cons,List.map_nil,List.sum_cons,
            List.sum_nil] at htaken ⊢
          omega
        subst hall
        have hnext : Holds ⟨Function.update t.message t.current 0,0,true,s.listened++[f.bytes],
          stream (names.map .file++[.stop])⟩ [] (stream (names.map .file++[.stop])) :=
          ⟨rfl,rfl,rfl,rfl⟩
        obtain ⟨hl,hnames⟩ := ih hnext ht (by rw [hlu]; simp)
        exact ⟨leaves_cons.mpr ⟨hrest,hl⟩,List.forall_mem_cons.mpr ⟨hne,hnames⟩⟩
    · have ht := loop_end hloop hs hru
      cases n with
      | zero =>
        cases ht
        rw [hr] at hru
        cases hru
      | succ n =>
        rw [loop_cons hr hv,loop_ended hrv] at ht
        cases ht
        have hlen := congrArg List.length (hlv.symm.trans hlu)
        simp at hlen

theorem holds_start {message : ℕ → UInt8} : (start message rest).Holds [] rest := ⟨rfl,rfl,rfl,rfl⟩

theorem Serves.leaves {message : ℕ → UInt8}
    (h : Serves shell message (stream (names.map .file++[.stop])) names) :
    Leaves shell names ∧ ∀ f ∈ names, f.bytes.head? ≠ some stopCode := by
  obtain ⟨n,s,hs,hr,hl⟩ := h
  exact serves_leaves holds_start hs hr hl

/-- The slave serves exactly the names that were written, and ends, if and only if no name
begins with the stop code and no command touches the input or stays away. -/
theorem framing (shell : Shell) (message : ℕ → UInt8) (names : List FileName) :
    Serves shell message (stream (names.map .file++[.stop])) names ↔
      (∀ f ∈ names, f.bytes.head? ≠ some stopCode) ∧ Leaves shell names := by
  constructor
  · exact fun h => h.leaves.symm
  · rintro ⟨hnames,hleaves⟩
    exact loop_stream holds_start hleaves hnames

/-- `md5sum` reads its standard input to the end where it is given the name `-`. -/
def md5sum : Shell where
  system c input := some (if c = command [45] then [] else input)
  takes := by
    intro c input rest h
    cases h
    split
    · exact List.nil_sublist _
    · exact List.Sublist.refl _

def stopFile : FileName := ⟨[stopCode],by decide,by decide,by decide⟩
def dashFile : FileName := ⟨[45],by decide,by decide,by decide⟩
def plainFile : FileName := ⟨[109],by decide,by decide,by decide⟩
def otherFile : FileName := ⟨[98,45],by decide,by decide,by decide⟩

theorem framing_two : Serves md5sum (fun _ => 0)
    (stream ([plainFile,otherFile].map .file++[.stop])) [plainFile,otherFile] := by
  refine (framing _ _ _).mpr ⟨by decide,?_⟩
  rw [leaves_cons,leaves_cons]
  exact ⟨by decide,by decide,fun pre f post he => by simp at he⟩

/-- The slave takes a name for a stop and ends without having served it, and behind the name `-`
the command reads the names that come then. -/
theorem framing_fails :
    ¬ Serves md5sum (fun _ => 0) (stream ([stopFile].map .file++[.stop])) [stopFile] ∧
    ¬ Serves md5sum (fun _ => 0) (stream ([dashFile,plainFile].map .file++[.stop]))
      [dashFile,plainFile] := by
  constructor
  · intro h
    exact h.leaves.2 stopFile List.mem_cons_self rfl
  · intro h
    have hdash := (leaves_cons.mp h.leaves.1).1
    revert hdash
    decide

/-- After a whole run of the application each slave has served the names that it was given. -/
theorem stopped_serves {md5sum : FileName → Line} {fork : Fin numOfSlaves → ℤ}
    {files : List FileName} {ls : List Distribution.Actor} {d : Distribution FileName}
    (hfork : ∀ i, fork i ≠ 0) (hline : ∀ f, md5sum f ≠ [])
    (hr : Runs.run (Distribution.step md5sum) (Distribution.createSlaves fork files) ls = some d)
    (hp : d.phase = .stopped) (hnames : ∀ f ∈ files, f.bytes.head? ≠ some stopCode)
    (hshell : ∀ f ∈ files, ∀ input, shell.system (command f.bytes) input = some input)
    (message : ℕ → UInt8) (i : Fin numOfSlaves) :
    Serves shell message (stream (d.slaves i).sent) (d.given i) := by
  have hprot := (Distribution.run_soundFor hfork hline hr).protocol
  obtain ⟨hfiles,-,hslaves⟩ := hprot.stopped hp
  have hgiven : ∀ f ∈ d.given i, f ∈ files := by
    intro f hf
    rw [hprot.routed i] at hf
    obtain ⟨w,hw,rfl⟩ := List.mem_map.mp hf
    rw [← hfiles]
    exact List.mem_map_of_mem (List.mem_of_mem_filter hw)
  have hleaves : Leaves shell (d.given i) := by
    intro pre f post he
    exact hshell f (hgiven f (by rw [he]; simp)) _
  rw [(hslaves i).1]
  exact loop_stream holds_start hleaves (fun f hf => hnames f (hgiven f hf))

end SlaveLoop
end ComplexOS.Hashing
