import ComplexOS.Userland.LineReading

/-! # The command line

`parseArguments` and `executeCommand` of the shell. The line is cut up in place, and the scan
for `|` and for a last `&` then sees what is before the first cut.
-/
namespace ComplexOS
open ByteMemory Terminated

inductive LaunchMode
  | foreground
  | background
  | writer
  | reader
  deriving DecidableEq, Repr

structure ShellLaunch where
  mode : LaunchMode
  name : List UInt8
  arguments : List (List UInt8)
  deriving DecidableEq, Repr

/-- The line, and the global array with the addresses of the arguments in it. -/
structure Shell where
  buffer : CallerBuffer
  arguments : ℕ → ℕ

def CallerBuffer.stringAt (b : CallerBuffer) (a : ℕ) : List UInt8 := upTo 0 (b.contents.drop a)

namespace Shell
variable (s : Shell)

/-- The array has 100 entries. -/
def setArgument (argc previous : ℕ) : Option Shell :=
  if argc < 100 then some { s with arguments := Function.update s.arguments argc previous } else none

def store (i : ℤ) (c : UInt8) : Option Shell := (s.buffer.store i c).map (fun b => { s with buffer := b })

/-- A loop up to NUL or another character, with the place and the character it ends on. -/
def scanTo (stop : UInt8) : ℕ → ℕ → CallerBuffer → Option (ℕ × UInt8)
  | 0, _, _ => none
  | n+1, string, b => (b.load string).bind (fun c =>
    if c ≠ stop ∧ c ≠ 0 then scanTo stop n (string+1) b else some (string,c))

/-- The first loop of `parseArguments`. -/
def skipWord : ℕ → ℕ → CallerBuffer → Option (ℕ × UInt8) := scanTo 32

/-- The second loop, and the last entry behind it. -/
def splitRest : ℕ → ℕ → ℕ → ℕ → Shell → Option (ℕ × Shell)
  | 0, _, _, _, _ => none
  | n+1, string, previous, argc, s => (s.buffer.load string).bind (fun c =>
    if c = 0 then (s.setArgument argc previous).map (fun s => (argc+1,s))
    else if c = 32 then (s.setArgument argc previous).bind (fun s =>
      (s.store string 0).bind (splitRest n (string+1) (string+1) (argc+1)))
    else splitRest n (string+1) previous argc s)

def rounds : ℕ := s.buffer.bound+1

def parseArguments (string : ℕ) : Option (ℕ × Shell) :=
  (skipWord s.rounds string s.buffer).bind (fun (i,c) =>
    (s.store i 0).bind (fun s => (s.setArgument 0 string).bind (fun s =>
      if c ≠ 0 then splitRest s.rounds (i+1) (i+1) 1 s else some (1,s))))

def launch (mode : LaunchMode) (name argc : ℕ) : ShellLaunch :=
  ⟨mode,s.buffer.stringAt name,(List.range argc).map (fun j => s.buffer.stringAt (s.arguments j))⟩

/-- The loop of `executeCommand`. -/
def findBar : ℕ → ℕ → CallerBuffer → Option (ℕ × UInt8) := scanTo 124

/-- What is launched. The second part of a pipe is parsed from the place of the `|` on. -/
def executeCommand (name argc : ℕ) : Option (List ShellLaunch) :=
  (findBar s.rounds name s.buffer).bind (fun (string,c) =>
    if c = 124 then
      (s.store string 0).bind (fun s => (s.parseArguments string).map (fun (argc',s') =>
        [s.launch .writer name argc,s'.launch .reader (string+1) argc']))
    else (s.buffer.load ((string:ℤ)-1)).bind (fun last =>
      if last = 38 then
        (s.store ((string:ℤ)-1) 0).map (fun s => [s.launch .background name argc])
      else some [s.launch .foreground name argc]))

def command : Option (List ShellLaunch) :=
  (s.parseArguments 0).bind (fun (argc,s) => s.executeCommand 0 argc)

end Shell

/-! ### Command lines -/

inductive CommandLine
  | foreground (ws : List (List UInt8))
  | background (ws : List (List UInt8))
  | pipe (ws us : List (List UInt8))

def spaced (ws : List (List UInt8)) : List UInt8 := List.intercalate [32] ws

/-- A word of a command line: no NUL, no space, no `|` and no `&`. -/
def Word (w : List UInt8) : Prop := w ≠ [] ∧ ∀ c ∈ w, c ≠ 0 ∧ c ≠ 32 ∧ c ≠ 124 ∧ c ≠ 38

instance : DecidablePred Word := fun w =>
  @instDecidableAnd (w ≠ []) _ _
    (List.decidableBAll (fun c : UInt8 => c ≠ 0 ∧ c ≠ 32 ∧ c ≠ 124 ∧ c ≠ 38) w)

namespace CommandLine

def text : CommandLine → List UInt8
  | foreground ws => spaced ws
  | background ws => spaced ws++[38]
  | pipe ws us => spaced ws++124::spaced us

def words : CommandLine → List (List UInt8)
  | foreground ws => ws
  | background ws => ws
  | pipe ws us => ws++us

/-- At least one word on each side, and no more than 50. -/
def WellFormed (line : CommandLine) : Prop :=
  (∀ w ∈ line.words, Word w) ∧ line.words.length ≤ 50 ∧ match line with
    | foreground ws => ws ≠ []
    | background ws => ws ≠ []
    | pipe ws us => ws ≠ [] ∧ us ≠ []

def launches : CommandLine → List ShellLaunch
  | foreground ws => [⟨.foreground,ws.headD [],ws⟩]
  | background ws => [⟨.background,ws.headD [],ws⟩]
  | pipe ws us => [⟨.writer,ws.headD [],ws⟩,⟨.reader,us.headD [],us⟩]

/-- In whatever array the line lies with its NUL. -/
def Runs (line : CommandLine) : Prop := ∀ s : Shell, Placed s.buffer.bytes 0 (line.text++[0]) →
  line.text.length < s.buffer.bound → s.command = some line.launches

/-- No operator, or an `&` behind a single word. -/
def Simple : CommandLine → Prop
  | foreground _ => True
  | background ws => ws.length = 1
  | pipe _ _ => False

end CommandLine

namespace CallerBuffer
variable {b : CallerBuffer} {a : ℕ} {c : UInt8} {t rest : List UInt8}

theorem load_placed (h : Placed b.bytes a (c::rest)) (ha : a < b.bound) : b.load a = some c := by
  rw [load_at ha,(placed_cons.mp h).1]

theorem drop_placed (h : Placed b.bytes a t) (ha : a+t.length ≤ b.bound) :
    b.contents.drop a = t++b.contents.drop (a+t.length) := by
  induction t generalizing a with
  | nil => rfl
  | cons c t ih =>
    obtain ⟨hc,ht⟩ := placed_cons.mp h
    rw [List.length_cons] at ha ⊢
    have hget : b.contents[a]? = some c := by
      rw [contents_getElem?,if_pos (by omega),hc]
    obtain ⟨hlt,hget⟩ := List.getElem?_eq_some_iff.mp hget
    rw [List.drop_eq_getElem_cons hlt,hget,ih ht (by omega),List.cons_append]
    congr 3
    omega

theorem stringAt_placed (h : Placed b.bytes a (t++[0])) (h0 : 0 ∉ t) (ha : a+t.length < b.bound) :
    b.stringAt a = t := by
  unfold stringAt
  rw [drop_placed h (by rw [List.length_append,List.length_singleton]; omega),List.append_assoc]
  exact upTo_append h0

end CallerBuffer

namespace Shell
open CallerBuffer
variable {s : Shell} {b : CallerBuffer} {stop c : UInt8} {t u w rest : List UInt8}
  {ts : List (List UInt8)} {n i a previous argc : ℕ}

theorem scanTo_eq (ht : ∀ c ∈ t, c ≠ stop ∧ c ≠ 0) (hc : c = stop ∨ c = 0)
    (hp : Placed b.bytes i (t++c::rest)) (hi : i+t.length < b.bound) (hn : t.length < n) :
    scanTo stop n i b = some (i+t.length,c) := by
  induction t generalizing i n with
  | nil =>
    obtain ⟨n,rfl⟩ := Nat.exists_eq_succ_of_ne_zero (Nat.ne_of_gt hn)
    rw [scanTo,load_placed hp hi,Option.bind_some,if_neg]
    · rfl
    · rintro ⟨h,h0⟩
      exact hc.elim h h0
  | cons d t ih =>
    obtain ⟨n,rfl⟩ := Nat.exists_eq_succ_of_ne_zero (show n ≠ 0 by omega)
    rw [List.length_cons] at hi hn
    rw [scanTo,load_placed hp (by omega),Option.bind_some,if_pos (ht d List.mem_cons_self),
      ih (fun c hc => ht c (List.mem_cons_of_mem _ hc)) (placed_cons.mp hp).2 (by omega) (by omega),
      List.length_cons,Nat.add_assoc,Nat.add_comm 1]

/-! ### Cutting up the line -/

def LinePart (t : List UInt8) : Prop := ∀ c ∈ t, c ≠ 32 ∧ c ≠ 0

/-- From `a` on the parts lie in the line, each with a NUL behind it, and the arguments from
number `j` on are their addresses. -/
def Spread (s : Shell) : ℕ → List (List UInt8) → ℕ → Prop
  | _, [], _ => True
  | a, t::ts, j => s.arguments j = a ∧ Placed s.buffer.bytes a (t++[0]) ∧
    a+t.length < s.buffer.bound ∧ Spread s (a+t.length+1) ts (j+1)

theorem spaced_cons (ht : ts ≠ []) : spaced (t::ts) = t++32::spaced ts := by
  unfold spaced
  rw [List.intercalate_cons_of_ne_nil ht,List.append_assoc]
  rfl

theorem spaced_singleton : spaced [t] = t := List.intercalate_singleton

theorem setArgument_eq (h : argc < 100) : s.setArgument argc previous =
    some { s with arguments := Function.update s.arguments argc previous } := if_pos h

def cut (s : Shell) (i : ℕ) : Shell :=
  { s with buffer := { s.buffer with bytes := Function.update s.buffer.bytes i 0 } }

theorem store_eq (h : i < s.buffer.bound) : s.store i 0 = some (s.cut i) := by
  unfold store
  rw [store_at h]
  rfl

/-- A part with a NUL stored behind it. -/
theorem placed_cut (h : Placed b.bytes a t) :
    Placed (Function.update b.bytes (a+t.length) 0) a (t++[0]) := by
  refine placed_append.mpr ⟨h.congr (fun x hx => Function.update_of_ne ?_ _ _),placed_cons.mpr
    ⟨Function.update_self _ _ _,placed_nil⟩⟩
  have hlt := hx.2
  omega

/-- What lies behind the place of a store. -/
theorem placed_behind (h : Placed b.bytes a t) (hi : i < a) :
    Placed (Function.update b.bytes i c) a t := by
  refine h.congr (fun x hx => Function.update_of_ne ?_ _ _)
  have hle := hx.1
  omega

/-- The loop goes over the characters of a part. -/
theorem splitRest_part (ht : LinePart t) (hp : Placed s.buffer.bytes i t)
    (hi : i+t.length ≤ s.buffer.bound) : splitRest (t.length+n) i previous argc s =
      splitRest n (i+t.length) previous argc s := by
  induction t generalizing i with
  | nil => rw [List.length_nil,Nat.zero_add,Nat.add_zero]
  | cons c t ih =>
    obtain ⟨h32,h0⟩ := ht c List.mem_cons_self
    rw [List.length_cons] at hi ⊢
    rw [Nat.add_right_comm,splitRest,load_placed hp (by omega),Option.bind_some,if_neg h0,if_neg h32,
      ih (fun c hc => ht c (List.mem_cons_of_mem _ hc)) (placed_cons.mp hp).2 (by omega),
      Nat.add_assoc i,Nat.add_comm 1]

/-- Every space behind the first part is overwritten, and the parts become arguments. -/
theorem splitRest_spaced (ht : ∀ x ∈ t::ts, LinePart x)
    (hp : Placed s.buffer.bytes i (spaced (t::ts)++[0]))
    (hi : i+(spaced (t::ts)).length < s.buffer.bound) (hc : argc+(t::ts).length ≤ 100)
    (hn : (spaced (t::ts)).length < n) :
    ∃ s', splitRest n i i argc s = some (argc+(t::ts).length,s') ∧ Spread s' i (t::ts) argc ∧
      s'.buffer.bound = s.buffer.bound ∧ (∀ x < i, s'.buffer.bytes x = s.buffer.bytes x) ∧
      ∀ j < argc, s'.arguments j = s.arguments j := by
  induction ts generalizing t s i argc n with
  | nil =>
    rw [spaced_singleton] at hp hi hn
    obtain ⟨hpt,hp0⟩ := placed_append.mp hp
    obtain ⟨n,rfl⟩ := Nat.exists_eq_add_of_lt hn
    rw [List.length_singleton] at hc ⊢
    rw [Nat.add_assoc,splitRest_part (ht t List.mem_cons_self) hpt (by omega),splitRest,
      load_placed hp0 hi,Option.bind_some,if_pos rfl,setArgument_eq (by omega),Option.map_some]
    refine ⟨_,rfl,⟨Function.update_self _ _ _,hp,hi,trivial⟩,rfl,fun _ _ => rfl,fun j hj => ?_⟩
    exact Function.update_of_ne (by omega) _ _
  | cons u us ih =>
    have hne : u::us ≠ [] := List.cons_ne_nil _ _
    rw [spaced_cons hne,List.append_assoc,List.cons_append] at hp
    rw [spaced_cons hne,List.length_append,List.length_cons] at hi hn
    rw [List.length_cons] at hc
    obtain ⟨hpt,hp32⟩ := placed_append.mp hp
    obtain ⟨n,rfl⟩ : ∃ m, n = t.length+(m+1) := ⟨n-t.length-1,by omega⟩
    rw [splitRest_part (ht t List.mem_cons_self) hpt (by omega),splitRest,
      load_placed hp32 (by omega),Option.bind_some,if_neg (by decide),if_pos rfl,
      setArgument_eq (by omega),Option.bind_some,store_eq (by change _ < s.buffer.bound; omega),
      Option.bind_some]
    have hrest : Placed (Function.update s.buffer.bytes (i+t.length) 0) (i+t.length+1)
        (spaced (u::us)++[0]) := placed_behind (placed_cons.mp hp32).2 (Nat.lt_succ_self _)
    obtain ⟨s',hs',hspread,hbound,hbytes,harguments⟩ := ih
      (s := { s with
        buffer := { s.buffer with bytes := Function.update s.buffer.bytes (i+t.length) 0 }
        arguments := Function.update s.arguments argc i })
      (n := n) (fun x hx => ht x (List.mem_cons_of_mem _ hx)) hrest
      (by change _ < s.buffer.bound; omega) (show argc+1+(u::us).length ≤ 100 by omega) (by omega)
    dsimp only at hbound hbytes harguments
    refine ⟨s',?_,⟨?_,?_,?_,hspread⟩,hbound,fun x hx => ?_,fun j hj => ?_⟩
    · have hargc : argc+(t::u::us).length = argc+1+(u::us).length := by
        rw [List.length_cons]
        omega
      rw [hargc]
      exact hs'
    · rw [harguments argc (Nat.lt_succ_self _)]
      exact Function.update_self _ _ _
    · refine (placed_cut hpt).congr (fun x hx => hbytes x ?_)
      have hlt := hx.2
      rw [List.length_append,List.length_singleton] at hlt
      omega
    · rw [hbound]
      omega
    · rw [hbytes x (by omega),Function.update_of_ne (by omega)]
    · rw [harguments j (by omega),Function.update_of_ne (by omega)]

/-- A line of parts is cut up into them. -/
theorem parseArguments_spaced (ht : ∀ x ∈ t::ts, LinePart x)
    (hp : Placed s.buffer.bytes 0 (spaced (t::ts)++[0])) (hi : (spaced (t::ts)).length < s.buffer.bound)
    (hc : (t::ts).length ≤ 100) : ∃ s', s.parseArguments 0 = some ((t::ts).length,s') ∧
      Spread s' 0 (t::ts) 0 ∧ s'.buffer.bound = s.buffer.bound := by
  have hpart := ht t List.mem_cons_self
  unfold parseArguments skipWord
  by_cases hts : ts = []
  · subst hts
    rw [spaced_singleton] at hp hi
    have hcut : Placed (Function.update s.buffer.bytes t.length 0) 0 (t++[0]) := by
      have h := placed_cut (placed_append.mp hp).1
      rwa [Nat.zero_add] at h
    rw [scanTo_eq hpart (Or.inr rfl) hp (by omega) (by unfold rounds; omega),Option.bind_some]
    dsimp only
    rw [Nat.zero_add,store_eq hi,Option.bind_some,setArgument_eq (by decide),Option.bind_some,
      if_neg (by decide)]
    refine ⟨_,rfl,⟨?_,hcut,?_,trivial⟩,rfl⟩
    · exact Function.update_self 0 0 s.arguments
    · change 0+t.length < s.buffer.bound
      omega
  · obtain ⟨u,us,rfl⟩ := List.exists_cons_of_ne_nil hts
    rw [spaced_cons hts,List.append_assoc,List.cons_append] at hp
    rw [spaced_cons hts,List.length_append,List.length_cons] at hi
    rw [List.length_cons] at hc
    obtain ⟨hpt,hp32⟩ := placed_append.mp hp
    have hcut := placed_cut hpt
    have hrest := placed_behind (c := 0) (placed_cons.mp hp32).2 (Nat.lt_succ_self (0+t.length))
    rw [Nat.zero_add] at hcut hrest
    rw [scanTo_eq hpart (Or.inl rfl) hp (by omega) (by unfold rounds; omega),Option.bind_some]
    dsimp only
    rw [Nat.zero_add,store_eq (by omega),Option.bind_some,setArgument_eq (by decide),Option.bind_some,
      if_pos (by decide)]
    obtain ⟨s',hs',hspread,hbound,hbytes,harguments⟩ := splitRest_spaced
      (s := { s with
        buffer := { s.buffer with bytes := Function.update s.buffer.bytes t.length 0 }
        arguments := Function.update s.arguments 0 0 })
      (n := s.buffer.bound+1) (fun x hx => ht x (List.mem_cons_of_mem _ hx)) hrest
      (by change _ < s.buffer.bound; omega) (show 1+(u::us).length ≤ 100 by omega) (by omega)
    dsimp only at hbound hbytes harguments
    refine ⟨s',?_,⟨?_,?_,?_,?_⟩,hbound⟩
    · have hargc : (t::u::us).length = 1+(u::us).length := by
        rw [List.length_cons,Nat.add_comm]
      rw [hargc]
      exact hs'
    · rw [harguments 0 (by decide)]
      exact Function.update_self _ _ _
    · refine hcut.congr (fun x hx => hbytes x ?_)
      have hlt := hx.2
      rw [List.length_append,List.length_singleton] at hlt
      omega
    · rw [hbound]
      omega
    · rw [Nat.zero_add]
      exact hspread

/-! ### What the arguments spell -/

theorem Spread.strings (h : Spread s a ts argc) (ht : ∀ x ∈ ts, LinePart x) :
    (List.range ts.length).map (fun j => s.buffer.stringAt (s.arguments (argc+j))) = ts := by
  induction ts generalizing a argc with
  | nil => rfl
  | cons t ts ih =>
    obtain ⟨ha,hp,hb,hrest⟩ := h
    have hstring : s.buffer.stringAt a = t :=
      stringAt_placed hp (fun h0 => (ht t List.mem_cons_self 0 h0).2 rfl) hb
    have htail := ih hrest (fun x hx => ht x (List.mem_cons_of_mem _ hx))
    rw [List.length_cons,List.range_succ_eq_map,List.map_cons,List.map_map,Nat.add_zero,ha,hstring]
    have hshift : (fun j => s.buffer.stringAt (s.arguments (argc+j))) ∘ Nat.succ =
        fun j => s.buffer.stringAt (s.arguments (argc+1+j)) := by
      funext j
      have hj : argc+Nat.succ j = argc+1+j := by omega
      exact congrArg (fun i => s.buffer.stringAt (s.arguments i)) hj
    rw [hshift,htail]

/-- A store in front of the parts. -/
theorem Spread.cut (h : Spread s a ts argc) (hi : i < a) : Spread (s.cut i) a ts argc := by
  induction ts generalizing a argc with
  | nil => trivial
  | cons t ts ih =>
    obtain ⟨ha,hp,hb,hrest⟩ := h
    exact ⟨ha,placed_behind hp hi,hb,ih hrest (by omega)⟩

/-- The first argument is read from the beginning of the line, the others as they are. -/
theorem Spread.launch (h : Spread s a ts 1) (mode : LaunchMode) (h0 : s.arguments 0 = 0)
    (hp : Placed s.buffer.bytes 0 (w++[0])) (hw : 0 ∉ w) (hb : w.length < s.buffer.bound) (ht : ∀ x ∈ ts, LinePart x) :
    s.launch mode 0 (ts.length+1) = ⟨mode,w,w::ts⟩ := by
  have hstring : s.buffer.stringAt 0 = w := stringAt_placed hp hw (by omega)
  have htail := h.strings ht
  have hshift : (fun j => s.buffer.stringAt (s.arguments j)) ∘ Nat.succ =
      fun j => s.buffer.stringAt (s.arguments (1+j)) := by
    funext j
    exact congrArg (fun i => s.buffer.stringAt (s.arguments i)) (Nat.add_comm j 1)
  unfold Shell.launch
  rw [List.range_succ_eq_map,List.map_cons,List.map_map,h0,hstring,hshift,htail]

/-! ### What is launched -/

theorem findBar_end (ht : ∀ c ∈ t, c ≠ 124 ∧ c ≠ 0) (hp : Placed s.buffer.bytes 0 (t++[0]))
    (hb : t.length < s.buffer.bound) : findBar s.rounds 0 s.buffer = some (t.length,0) := by
  have h : scanTo 124 s.rounds 0 s.buffer = _ :=
    scanTo_eq ht (Or.inr rfl) hp (by omega) (by unfold rounds; omega)
  rwa [Nat.zero_add] at h

/-- The first part has no operator: it is launched in the foreground with all parts. -/
theorem executeCommand_plain (ht : Word t) (hts : ∀ x ∈ ts, LinePart x) (h : Spread s 0 (t::ts) 0) :
    s.executeCommand 0 (ts.length+1) = some [⟨.foreground,t,t::ts⟩] := by
  obtain ⟨h0,hp,hb,hrest⟩ := h
  obtain ⟨hne,hword⟩ := ht
  have hpos : 0 < t.length := List.length_pos_iff.mpr hne
  have hlast : s.buffer.load ((t.length:ℤ)-1) = some (t[t.length-1]) := by
    have hcast : (t.length:ℤ)-1 = ((t.length-1 : ℕ):ℤ) := by omega
    have hbyte := (placed_append.mp hp).1 (t.length-1) _ (List.getElem?_eq_getElem (by omega))
    rw [Nat.zero_add] at hbyte
    rw [hcast,load_at (by omega),hbyte]
  have hamp : t[t.length-1] ≠ 38 := (hword _ (List.getElem_mem _)).2.2.2
  unfold executeCommand
  rw [findBar_end (fun c hc => ⟨(hword c hc).2.2.1,(hword c hc).1⟩) hp (by omega),
    Option.bind_some]
  dsimp only
  rw [if_neg (by decide),hlast,Option.bind_some,if_neg hamp,
    hrest.launch _ h0 hp (fun hc => (hword 0 hc).1 rfl) (by omega) hts]

/-- An `&` at the end of the first part: it is launched in the background with all parts. -/
theorem executeCommand_background (hw : Word w) (hts : ∀ x ∈ ts, LinePart x)
    (h : Spread s 0 ((w++[38])::ts) 0) :
    s.executeCommand 0 (ts.length+1) = some [⟨.background,w,w::ts⟩] := by
  obtain ⟨h0,hp,hb,hrest⟩ := h
  have hlen : (w++[(38 : UInt8)]).length = w.length+1 := by rw [List.length_append,List.length_singleton]
  have hplain : ∀ c ∈ w++[38], c ≠ 124 ∧ c ≠ 0 := by
    intro c hc
    obtain hc | hc := List.mem_append.mp hc
    · exact ⟨(hw.2 c hc).2.2.1,(hw.2 c hc).1⟩
    · rw [List.mem_singleton.mp hc]
      decide
  have hpw : Placed s.buffer.bytes 0 (w++38::[0]) := by
    rw [List.append_assoc] at hp
    exact hp
  obtain ⟨hpt,hp38⟩ := placed_append.mp hpw
  have hcut := placed_cut hpt
  rw [Nat.zero_add] at hp38 hcut
  have hcast : ((w++[(38 : UInt8)]).length:ℤ)-1 = (w.length:ℤ) := by omega
  unfold executeCommand
  rw [findBar_end hplain hp (by omega),Option.bind_some]
  dsimp only
  rw [if_neg (by decide),hcast,load_placed hp38 (by omega),Option.bind_some,if_pos rfl,
    store_eq (by omega),Option.map_some]
  have hlaunch := (hrest.cut (i := w.length) (by omega)).launch .background h0 hcut
    (fun hc => (hw.2 0 hc).1 rfl) (by change w.length < s.buffer.bound; omega) hts
  rw [hlaunch]

/-- A `|` in the first part: the writer gets all parts, and the reader an empty argument, as it
is parsed from the place of the `|` on, where a NUL is. -/
theorem executeCommand_pipe (hw : Word w) (hu : Word u) (hts : ∀ x ∈ ts, LinePart x)
    (h : Spread s 0 ((w++124::u)::ts) 0) :
    s.executeCommand 0 (ts.length+1) = some [⟨.writer,w,w::ts⟩,⟨.reader,u,[[]]⟩] := by
  obtain ⟨h0,hp,hb,hrest⟩ := h
  have hlen : (w++124::u).length = w.length+u.length+1 := by
    rw [List.length_append,List.length_cons,Nat.add_assoc]
  rw [List.append_assoc,List.cons_append] at hp
  obtain ⟨hpw,hp124⟩ := placed_append.mp hp
  have hcut := placed_cut hpw
  rw [Nat.zero_add] at hp124 hcut
  have hpu := placed_behind (c := 0) (placed_cons.mp hp124).2 (Nat.lt_succ_self w.length)
  have hbar : findBar s.rounds 0 s.buffer = some (w.length,124) := by
    have h : scanTo 124 s.rounds 0 s.buffer = _ :=
      scanTo_eq (fun c hc => ⟨(hw.2 c hc).2.2.1,(hw.2 c hc).1⟩) (Or.inl rfl) hp (by omega)
        (by unfold rounds; omega)
    rwa [Nat.zero_add] at h
  unfold executeCommand
  rw [hbar,Option.bind_some]
  dsimp only
  rw [if_pos rfl,store_eq (by omega),Option.bind_some]
  have hwriter := (hrest.cut (i := w.length) (by omega)).launch .writer h0 hcut
    (fun hc => (hw.2 0 hc).1 rfl) (by change w.length < s.buffer.bound; omega) hts
  have hzero : Placed (Function.update s.buffer.bytes w.length 0) w.length ([]++0::u++[0]) :=
    placed_cons.mpr ⟨Function.update_self _ _ _,hpu⟩
  rw [hwriter]
  unfold parseArguments skipWord
  have hskip : scanTo 32 (s.cut w.length).rounds w.length (s.cut w.length).buffer =
      some (w.length+0,0) :=
    scanTo_eq (fun c hc => absurd hc List.not_mem_nil) (Or.inr rfl) hzero
      (by change w.length+0 < s.buffer.bound; omega) (Nat.succ_pos _)
  rw [hskip,Option.bind_some]
  dsimp only
  rw [store_eq (by change _ < s.buffer.bound; omega),Option.bind_some,setArgument_eq (by decide),
    Option.bind_some,if_neg (by decide),Option.map_some]
  have hname : ((s.cut w.length).cut w.length).buffer.stringAt (w.length+1) = u :=
    stringAt_placed (placed_behind hpu (Nat.lt_succ_self _)) (fun hc => (hu.2 0 hc).1 rfl)
      (by change _ < s.buffer.bound; omega)
  have hargument : ((s.cut w.length).cut w.length).buffer.stringAt w.length = [] :=
    stringAt_placed (placed_cons.mpr ⟨Function.update_self _ _ _,placed_nil⟩) List.not_mem_nil
      (by change w.length+0 < s.buffer.bound; omega)
  have hreader : ShellLaunch.mk .reader (((s.cut w.length).cut w.length).buffer.stringAt (w.length+1))
      [((s.cut w.length).cut w.length).buffer.stringAt w.length] = ⟨.reader,u,[[]]⟩ := by
    rw [hname,hargument]
  exact congrArg (fun l => some [⟨.writer,w,w::ts⟩,l]) hreader

/-! ### Command lines -/

theorem part_of_word (hw : Word w) : LinePart w := fun c hc => ⟨(hw.2 c hc).2.1,(hw.2 c hc).1⟩

theorem command_eq (ht : ∀ x ∈ t::ts, LinePart x) (hp : Placed s.buffer.bytes 0 (spaced (t::ts)++[0]))
    (hi : (spaced (t::ts)).length < s.buffer.bound) (hc : (t::ts).length ≤ 100) :
    ∃ s' : Shell, Spread s' 0 (t::ts) 0 ∧ s.command = s'.executeCommand 0 (ts.length+1) := by
  obtain ⟨s',hs',hspread,-⟩ := parseArguments_spaced ht hp hi hc
  refine ⟨s',hspread,?_⟩
  unfold command
  rw [hs']
  rfl

end Shell

namespace CommandLine
open Shell
variable {s : Shell} {line : CommandLine} {t u v w x : List UInt8} {ts ws us : List (List UInt8)}

def extendLast (suffix : List UInt8) : List (List UInt8) → List (List UInt8)
  | [] => []
  | [w] => [w++suffix]
  | w::v::ws => w::extendLast suffix (v::ws)

theorem extendLast_ne_nil (w : List UInt8) (ws : List (List UInt8)) : extendLast x (w::ws) ≠ [] := by
  cases ws <;> exact List.cons_ne_nil _ _

theorem extendLast_length : (extendLast x ws).length = ws.length := by
  induction ws with
  | nil => rfl
  | cons w ws ih =>
    cases ws with
    | nil => rfl
    | cons v ws => exact congrArg (·+1) ih

theorem extendLast_part (hx : LinePart x) (hws : ∀ w ∈ ws, Word w) : ∀ t ∈ extendLast x ws, LinePart t := by
  induction ws with
  | nil => exact fun t ht => absurd ht List.not_mem_nil
  | cons w ws ih =>
    have hw := part_of_word (hws w List.mem_cons_self)
    cases ws with
    | nil =>
      intro t ht c hc
      rw [List.mem_singleton.mp ht] at hc
      exact (List.mem_append.mp hc).elim (hw c) (hx c)
    | cons v ws =>
      intro t ht
      obtain rfl | ht := List.mem_cons.mp ht
      · exact hw
      · exact ih (fun w hw => hws w (List.mem_cons_of_mem _ hw)) t ht

/-- Behind the parts come those of the words `us`. -/
theorem spaced_extendLast (hws : ws ≠ []) : spaced (extendLast x ws++us) =
    spaced ws++x++(if us = [] then [] else 32::spaced us) := by
  induction ws with
  | nil => exact absurd rfl hws
  | cons w ws ih =>
    cases ws with
    | nil =>
      rw [extendLast,List.singleton_append,spaced_singleton]
      split_ifs with hus
      · rw [hus,spaced_singleton,List.append_nil]
      · exact spaced_cons hus
    | cons v ws =>
      have hne : extendLast x (v::ws)++us ≠ [] :=
        fun h => extendLast_ne_nil v ws (List.append_eq_nil_iff.mp h).1
      rw [extendLast,List.cons_append,spaced_cons hne,ih (List.cons_ne_nil _ _),
        spaced_cons (List.cons_ne_nil _ _)]
      simp only [List.append_assoc,List.cons_append]

def shellOf (line : CommandLine) : Shell where
  buffer := ⟨line.text.length+1,fun i => (line.text++[0]).getD i 0⟩
  arguments := fun _ => 0

theorem shellOf_placed (line : CommandLine) : Placed line.shellOf.buffer.bytes 0 (line.text++[0]) := by
  intro k b hb
  rw [Nat.zero_add]
  change (line.text++[0]).getD k 0 = b
  rw [List.getD_eq_getElem?_getD,hb,Option.getD_some]

theorem Runs.command_shellOf (h : line.Runs) : line.shellOf.command = some line.launches :=
  h line.shellOf (shellOf_placed line) (Nat.lt_succ_self _)

/-- The array with the line, once the line has been cut up. -/
theorem command_shellOf (htext : spaced (t::ts) = line.text) (ht : ∀ x ∈ t::ts, LinePart x)
    (hc : (t::ts).length ≤ 100) : ∃ s' : Shell, Spread s' 0 (t::ts) 0 ∧
      line.shellOf.command = s'.executeCommand 0 (ts.length+1) := by
  have hp := shellOf_placed line
  rw [← htext] at hp
  refine command_eq ht hp ?_ hc
  rw [htext]
  exact Nat.lt_succ_self _

/-- Behind a first word that is not the last, no operator is seen. -/
theorem not_runs_many (htext : line.text = spaced (extendLast x (w::v::ws)++us)) (hx : LinePart x)
    (hws : ∀ w' ∈ w::v::ws, Word w') (hus : ∀ u ∈ us, Word u)
    (hc : (w::v::ws).length+us.length ≤ 100)
    (hmode : ∀ l ∈ line.launches, l.mode ≠ .foreground) : ¬ line.Runs := by
  intro h
  have hts : ∀ t ∈ extendLast x (v::ws)++us, LinePart t := by
    intro t ht
    obtain ht | ht := List.mem_append.mp ht
    · exact extendLast_part hx (fun w hw => hws w (List.mem_cons_of_mem _ hw)) t ht
    · exact part_of_word (hus t ht)
  have hw := hws w List.mem_cons_self
  have hparts : ∀ t ∈ w::(extendLast x (v::ws)++us), LinePart t :=
    fun t ht => (List.mem_cons.mp ht).elim (fun he => he ▸ part_of_word hw) (hts t)
  have htext' : spaced (w::(extendLast x (v::ws)++us)) = line.text := htext.symm
  obtain ⟨s',hspread,heq⟩ := command_shellOf htext' hparts
    (by rw [List.length_cons,List.length_append,extendLast_length,Nat.add_right_comm]; exact hc)
  rw [h.command_shellOf,executeCommand_plain hw hts hspread] at heq
  have hl := Option.some.inj heq
  refine hmode ⟨.foreground,w,w::(extendLast x (v::ws)++us)⟩ ?_ rfl
  rw [hl]
  exact List.mem_singleton_self _

/-- Without an operator the first word is launched in the foreground. -/
theorem runs_foreground (hne : ws ≠ []) (hws : ∀ w ∈ ws, Word w) (hc : ws.length ≤ 100) :
    (foreground ws).Runs := by
  obtain ⟨w,ws,rfl⟩ := List.exists_cons_of_ne_nil hne
  intro s hp hi
  obtain ⟨s',hspread,heq⟩ := command_eq (fun t ht => part_of_word (hws t ht)) hp hi hc
  rw [heq,executeCommand_plain (hws w List.mem_cons_self)
    (fun t ht => part_of_word (hws t (List.mem_cons_of_mem _ ht))) hspread]
  rfl

theorem part_ampersand : LinePart [38] := by
  intro c hc
  rw [List.mem_singleton.mp hc]
  decide

theorem runs_background (hne : ws ≠ []) (hws : ∀ w ∈ ws, Word w) (hc : ws.length ≤ 100) :
    (background ws).Runs ↔ ws.length = 1 := by
  obtain ⟨w,ws,rfl⟩ := List.exists_cons_of_ne_nil hne
  have hw := hws w List.mem_cons_self
  cases ws with
  | nil =>
    refine iff_of_true (fun s hp hi => ?_) rfl
    have htext : (background [w]).text = spaced [w++[38]] := by
      rw [text,spaced_singleton,spaced_singleton]
    rw [htext] at hp hi
    have hparts : ∀ t ∈ [w++[38]], LinePart t := extendLast_part part_ampersand hws
    obtain ⟨s',hspread,heq⟩ := command_eq hparts hp hi hc
    rw [heq,executeCommand_background hw (fun t ht => absurd ht List.not_mem_nil) hspread]
    rfl
  | cons v ws =>
    have htext : (background (w::v::ws)).text = spaced (extendLast [38] (w::v::ws)++[]) := by
      rw [spaced_extendLast (List.cons_ne_nil _ _),if_pos rfl,List.append_nil]
      rfl
    refine iff_of_false (not_runs_many htext part_ampersand hws
      (fun u hu => absurd hu List.not_mem_nil) hc (fun l hl => ?_)) (fun h => by cases h)
    rw [List.mem_singleton.mp hl]
    exact LaunchMode.noConfusion

/-- The reader never gets its words. -/
theorem not_runs_pipe (hws : ws ≠ []) (hus : us ≠ []) (hw : ∀ w ∈ ws++us, Word w)
    (hc : (ws++us).length ≤ 100) : ¬ (pipe ws us).Runs := by
  obtain ⟨w,ws,rfl⟩ := List.exists_cons_of_ne_nil hws
  obtain ⟨u,us,rfl⟩ := List.exists_cons_of_ne_nil hus
  have hu : Word u := hw u (List.mem_append_right _ List.mem_cons_self)
  have hrest : ∀ u' ∈ us, Word u' :=
    fun u' h => hw u' (List.mem_append_right _ (List.mem_cons_of_mem _ h))
  have hbar : LinePart (124::u) := by
    intro c h
    obtain rfl | h := List.mem_cons.mp h
    · decide
    · exact part_of_word hu c h
  have htext : (pipe (w::ws) (u::us)).text = spaced (extendLast (124::u) (w::ws)++us) := by
    rw [spaced_extendLast (List.cons_ne_nil _ _),text]
    split_ifs with h
    · rw [h,spaced_singleton,List.append_nil]
    · rw [spaced_cons h]
      simp only [List.append_assoc,List.cons_append]
  rw [List.length_append] at hc
  cases ws with
  | nil =>
    intro h
    have htext' : spaced ((w++124::u)::us) = (pipe [w] (u::us)).text := htext.symm
    have hfirst : LinePart (w++124::u) := by
      intro c hc
      exact (List.mem_append.mp hc).elim (part_of_word (hw w List.mem_cons_self) c) (hbar c)
    have hus' : ∀ t ∈ us, LinePart t := fun t ht => part_of_word (hrest t ht)
    obtain ⟨s',hspread,heq⟩ := command_shellOf htext'
      (fun t ht => (List.mem_cons.mp ht).elim (fun he => he ▸ hfirst) (hus' t))
      (by rw [List.length_singleton,List.length_cons,Nat.add_comm] at hc; exact Nat.le_of_succ_le hc)
    rw [h.command_shellOf,executeCommand_pipe (hw w List.mem_cons_self) hu hus' hspread] at heq
    -- the arguments of the second launch
    have hl : (pipe [w] (u::us)).launches[1]? = some ⟨.reader,u,[[]]⟩ := by
      rw [Option.some.inj heq]
      rfl
    have hargs : u::us = [[]] := congrArg ShellLaunch.arguments (Option.some.inj hl)
    exact hu.1 (List.cons.inj hargs).1
  | cons v ws =>
    have hless : us.length ≤ (u::us).length := by
      rw [List.length_cons]
      exact Nat.le_succ _
    refine not_runs_many htext hbar (fun w' h => hw w' (List.mem_append_left _ h)) hrest
      ((Nat.add_le_add_left hless _).trans hc) ?_
    intro l hl
    obtain rfl | hl := List.mem_cons.mp hl
    · exact LaunchMode.noConfusion
    · rw [List.mem_singleton.mp hl]
      exact LaunchMode.noConfusion

/-- The shell launches what a line asks for exactly if the line has no operator, or an `&`
behind a single word. -/
theorem shell_runs (h : line.WellFormed) : line.Runs ↔ line.Simple := by
  obtain ⟨hw,hc,hne⟩ := h
  have hentries : line.words.length ≤ 100 := hc.trans (by decide)
  cases line with
  | foreground ws => exact iff_of_true (runs_foreground hne hw hentries) trivial
  | background ws => exact runs_background hne hw hentries
  | pipe ws us => exact iff_of_false (not_runs_pipe hne.1 hne.2 hw hentries) id

/-- `ab cd`. -/
theorem shell_runs_two : (foreground [[97,98],[99,100]]).Runs :=
  (shell_runs ⟨by decide,by decide,List.cons_ne_nil _ _⟩).mpr trivial

/-- `ab|cd`: the reader gets an empty argument. -/
theorem not_shell_runs : ¬ ∀ line : CommandLine, line.WellFormed → line.Runs := by
  intro h
  refine not_runs_pipe (List.cons_ne_nil _ _) (List.cons_ne_nil _ _) (by decide) (by decide)
    (h (pipe [[97,98]] [[99,100]]) ⟨by decide,by decide,List.cons_ne_nil _ _,List.cons_ne_nil _ _⟩)

end CommandLine
end ComplexOS
