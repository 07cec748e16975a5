import ComplexOS.Userland.IntegerText

/-! # Formatted reading

`sscanf` with its four directives. Behind a directive the character after the `%` is still in
`ch`, and the step that matches literal characters compares it with the input as well. The
arithmetic of `double` is a parameter. Both strings are arrays, and a read behind their end
answers `none`.
-/
namespace ComplexOS.Libc
variable {δ : Type*}

inductive Stored (δ : Type*)
  | int (v : ℤ)
  | double (x : δ)
  | char (c : UInt8)
  | text (cs : List UInt8)
  deriving DecidableEq, Repr

section Doubles
variable [IntCast δ] [Add δ] [Mul δ] [Div δ]

/-- The loop of `parseDouble`, and its last line. -/
def parseDecimals (sign : ℤ) : List UInt8 → δ → Bool → δ → ℕ → Option (δ × ℕ)
  | [], _, _, _, _ => none
  | c::string, value, dotFlag, decimalPlace, digits =>
    if isDigit c then
      if dotFlag then
        parseDecimals sign string (value+((c.toNat:ℤ)-48 : ℤ)/decimalPlace) true
          (decimalPlace*(10:ℤ)) (digits+1)
      else
        parseDecimals sign string (value*(10:ℤ)+((c.toNat:ℤ)-48 : ℤ)) false decimalPlace (digits+1)
    else if c = 46 ∧ ¬ dotFlag then parseDecimals sign string value true decimalPlace (digits+1)
    else some (value*sign,digits)

def parseDouble : List UInt8 → Option (δ × ℕ)
  | [] => none
  | c::string =>
    if c = 45 then
      match string with
      | [] => none
      | d::_ =>
        if isDigit d then parseDecimals (-1) string (0:ℤ) false (10:ℤ) 1 else some ((0:ℤ),0)
    else parseDecimals 1 (c::string) (0:ℤ) false (10:ℤ) 0

end Doubles

def readText : List UInt8 → Option (List UInt8 × List UInt8)
  | [] => none
  | c::str => if c = 0 then some ([],str) else (readText str).map (fun (cs,str) => (c::cs,str))

section Scan
variable [IntCast δ] [Add δ] [Mul δ] [Div δ]

/-- The `switch`: what is stored, and the rest of the input. -/
def directive (ch : UInt8) (str : List UInt8) : Option (List (Stored δ) × List UInt8) :=
  if ch = 100 then (parseInt str).map (fun (v,index) => ([.int v],str.drop index))
  else if ch = 102 then (parseDouble str).map (fun (x,index) => ([.double x],str.drop index))
  else if ch = 99 then
    match str with
    | [] => none
    | c::str => some ([.char c],str)
  else if ch = 115 then (readText str).map (fun (cs,str) => ([.text cs],str))
  else some ([],str)

/-- The step behind the `switch`. -/
def matchChar (ch : UInt8) (str : List UInt8) (result : ℕ × List (Stored δ))
    (next : List UInt8 → Option (ℕ × List (Stored δ))) : Option (ℕ × List (Stored δ)) :=
  match str with
  | [] => none
  | c::str => if ch ≠ c then some result else next str

def scan : List UInt8 → List UInt8 → ℕ → List (Stored δ) → Option (ℕ × List (Stored δ))
  | [], _, _, _ => none
  | ch::format, str, read, stored =>
    if ch = 0 then some (read,stored)
    else if ch = 37 then
      match format with
      | [] => none
      | ch::format => (directive ch str).bind (fun (new,str) =>
        matchChar ch str (read+new.length,stored++new)
          (fun str => scan format str (read+new.length) (stored++new)))
    else matchChar ch str (read,stored) (fun str => scan format str read stored)

/-- What is returned, and what is stored. -/
def sscanf (format str : List UInt8) : Option (ℕ × List (Stored δ)) := scan format str 0 []

/-! ### Integers with separators -/

def formatOf (n : ℕ) (c : UInt8) : List UInt8 := List.intercalate [c] (List.replicate n [37,100])

def renderings (vs : List ℤ) (c : UInt8) : List UInt8 := List.intercalate [c] (vs.map intText)

variable (δ) in
/-- Whatever lies behind the two strings. -/
def ReadsBack (vs : List ℤ) (c : UInt8) : Prop := ∀ behind behind' : List UInt8,
  sscanf (δ := δ) (formatOf vs.length c++0::behind) (renderings vs c++0::behind') =
    some (vs.length,vs.map .int)

variable {c : UInt8} {vs : List ℤ} {v : ℤ} {str format rest : List UInt8} {read : ℕ}
  {stored : List (Stored δ)}

theorem directive_int (hlo : -2^31 < v) (hhi : v < 2^31) (hc : ¬ isDigit c) :
    directive (δ := δ) 100 (intText v++c::rest) = some ([.int v],c::rest) := by
  unfold directive
  rw [if_pos rfl,parseInt_intText hlo hhi hc,Option.map_some]
  dsimp only
  rw [List.drop_left]

omit [IntCast δ] [Add δ] [Mul δ] [Div δ] in
theorem matchChar_ne {result : ℕ × List (Stored δ)} {next : List UInt8 → Option (ℕ × List (Stored δ))}
    {ch : UInt8} (h : ch ≠ c) : matchChar ch (c::str) result next = some result := if_pos h

omit [IntCast δ] [Add δ] [Mul δ] [Div δ] in
theorem matchChar_eq {result : ℕ × List (Stored δ)} {next : List UInt8 → Option (ℕ × List (Stored δ))} :
    matchChar c (c::str) result next = next str := if_neg (not_not.mpr rfl)

theorem scan_literal {ch : UInt8} (h0 : ch ≠ 0) (h37 : ch ≠ 37) (hne : ch ≠ c) :
    scan (ch::format) (c::str) read stored = some (read,stored) := by
  rw [scan.eq_def]
  dsimp only
  rw [if_neg h0,if_neg h37]
  exact matchChar_ne hne

/-- A rendering begins with a digit or a sign. -/
theorem intText_cons (v : ℤ) : ∃ c cs, intText v = c::cs ∧ c ≠ 100 := by
  obtain ⟨d,cs,hd,hlt⟩ := exists_uintToBase v.natAbs
  unfold intText
  rw [hd]
  split_ifs
  · exact ⟨45,_,rfl,by decide⟩
  · refine ⟨digit d,cs,rfl,?_⟩
    interval_cases d <;> decide

theorem intercalate_cons (x : List UInt8) (xs : List (List UInt8)) : List.intercalate [c] (x::xs) =
    x++(if xs = [] then [] else c::List.intercalate [c] xs) := by
  split_ifs with h
  · rw [h,List.intercalate_singleton,List.append_nil]
  · rw [List.intercalate_cons_of_ne_nil h,List.append_assoc]
    rfl

theorem renderings_cons (v : ℤ) (vs : List ℤ) (c : UInt8) : renderings (v::vs) c =
    intText v++(if vs = [] then [] else c::renderings vs c) := by
  unfold renderings
  rw [List.map_cons,intercalate_cons]
  simp only [List.map_eq_nil_iff]

theorem formatOf_succ (n : ℕ) (c : UInt8) : formatOf (n+1) c =
    37::100::(if n = 0 then [] else c::formatOf n c) := by
  unfold formatOf
  rw [List.replicate_succ,intercalate_cons]
  simp only [List.replicate_eq_nil_iff]
  rfl

/-- The first directive is carried out, and the call ends at the step behind it, or at the
character that comes next. -/
theorem sscanf_first {behind behind' : List UInt8} (hlo : -2^31 < v) (hhi : v < 2^31)
    (hc : ¬ isDigit c) (hsep : c ≠ 37 ∧ c ≠ 0) :
    sscanf (δ := δ) (formatOf (vs.length+1) c++0::behind) (renderings (v::vs) c++0::behind') =
      some (1,[.int v]) := by
  unfold sscanf
  rw [formatOf_succ,renderings_cons,List.cons_append,List.cons_append,scan,if_neg (by decide),
    if_pos rfl]
  dsimp only
  cases vs with
  | nil =>
    rw [if_pos rfl,List.append_nil,directive_int hlo hhi (by decide),Option.bind_some]
    exact matchChar_ne (by decide)
  | cons w ws =>
    rw [if_neg (List.cons_ne_nil _ _),List.append_assoc,List.cons_append,
      directive_int hlo hhi hc,Option.bind_some]
    dsimp only
    rw [if_neg (show ¬ (w::ws).length = 0 from Nat.succ_ne_zero _)]
    by_cases hd : c = 100
    · -- the separator is taken for the rest of the directive, and the next one for a literal
      subst hd
      obtain ⟨x,xs,hx,hne⟩ := intText_cons w
      rw [renderings_cons,hx,List.cons_append,List.cons_append,List.cons_append,matchChar_eq]
      exact scan_literal hsep.2 hsep.1 (Ne.symm hne)
    · exact matchChar_ne (Ne.symm hd)

/-- Only a single integer is read back: of a longer list the call stores the first one. -/
theorem sscanf_readsBack (hne : vs ≠ []) (hv : ∀ v ∈ vs, -2^31 < v ∧ v < 2^31)
    (hc : ¬ isDigit c ∧ c ≠ 45 ∧ c ≠ 37 ∧ c ≠ 0) : ReadsBack δ vs c ↔ vs.length = 1 := by
  obtain ⟨v,vs,rfl⟩ := List.exists_cons_of_ne_nil hne
  have hfirst := hv v List.mem_cons_self
  have hread : ∀ behind behind' : List UInt8, sscanf (δ := δ) (formatOf (vs.length+1) c++0::behind)
      (renderings (v::vs) c++0::behind') = some (1,[.int v]) :=
    fun behind behind' => sscanf_first hfirst.1 hfirst.2 hc.1 hc.2.2
  constructor
  · intro h
    have heq := (hread [] []).symm.trans (h [] [])
    exact (congrArg Prod.fst (Option.some.inj heq)).symm
  · intro h behind behind'
    have hnil : vs = [] := List.eq_nil_of_length_eq_zero (Nat.succ.inj h)
    subst hnil
    exact hread behind behind'

theorem sscanf_readsBack_one : ReadsBack ℚ [-2^31+1] 59 :=
  (sscanf_readsBack (List.cons_ne_nil _ _) (by decide) (by decide)).mpr rfl

/-- `sscanf("%d;%d","1;2",…)` answers 1. -/
theorem not_sscanf_readsBack : ¬ ∀ (vs : List ℤ) (c : UInt8), vs ≠ [] →
    (∀ v ∈ vs, -2^31 < v ∧ v < 2^31) → (¬ isDigit c ∧ c ≠ 45 ∧ c ≠ 37 ∧ c ≠ 0) → ReadsBack ℚ vs c := by
  intro h
  have hread : sscanf (δ := ℚ) (formatOf ([(2:ℤ)].length+1) 59++[0]) (renderings [1,2] 59++[0]) =
      some (1,[.int 1]) := sscanf_first (by decide) (by decide) (by decide) (by decide)
  have heq := hread.symm.trans (h [1,2] 59 (List.cons_ne_nil _ _) (by decide) (by decide) [] [])
  exact absurd (congrArg Prod.fst (Option.some.inj heq)) (by decide)

end Scan
end ComplexOS.Libc
