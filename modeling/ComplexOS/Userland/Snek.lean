import Mathlib.Data.Int.Notation
import Mathlib.Logic.Function.Basic
import ComplexOS.Library.Runs

/-! # Snek

The two tails are rings of 160 positions. `updateTail` wraps both indices of a tail, and a
snack then moves the younger one on by two, past the end of the array if it is eaten at the
wrong time.
-/
namespace ComplexOS.Snek
open Runs

structure Vector2 where
  x : ℤ
  y : ℤ
  deriving DecidableEq, Repr

structure Tail where
  sprite : UInt8
  length : ℕ
  tailPositions : ℕ → Vector2
  oldestElemIndex : ℕ
  youngestElemIndex : ℕ

structure Player where
  sprite : UInt8
  position : Vector2
  speed : Vector2
  deriving DecidableEq, Repr

structure Snack where
  sprite : UInt8
  position : Vector2
  deriving DecidableEq, Repr

structure Game where
  player : Player
  player2 : Player
  tail : Tail
  tail2 : Tail
  snack : Snack
  playerAlive : Bool
  playerAlive2 : Bool

/-- What a round gets from outside: the key, and the seconds that `getSeconds` answers for the
new place of a snack, once if the first player eats and once if the second does. -/
structure Input where
  inputKey : UInt8
  seconds : ℕ × ℕ
  seconds2 : ℕ × ℕ
  deriving DecidableEq, Repr

def tailLengthLimit : ℕ := 160

def gameWidth : ℕ := 80

def gameHeight : ℕ := 25

/-! ### The accesses -/

namespace Tail
variable (tail : Tail)

def load (i : ℕ) : Option Vector2 := if i < tailLengthLimit then some (tail.tailPositions i) else none

def store (i : ℕ) (p : Vector2) : Option Tail :=
  if i < tailLengthLimit then some { tail with tailPositions := Function.update tail.tailPositions i p }
  else none

def loads : ℕ → ℕ → Option (List Vector2)
  | 0, _ => some []
  | n+1, i => (tail.load i).bind (fun p => (loads n (i+1)).map (p::·))

def elements : Option (List Vector2) :=
  tail.loads (tail.youngestElemIndex-tail.oldestElemIndex) tail.oldestElemIndex

end Tail

/-! ### A round -/

def Player.turned (player : Player) (x y : ℤ) : Player := { player with speed := ⟨x,y⟩ }

/-- The keys `w`, `s`, `d`, `a` of the first player and `i`, `k`, `l`, `j` of the second. -/
def handleInput (inputKey : UInt8) (player player2 : Player) : Player × Player :=
  if inputKey = 119 then (player.turned 0 (-1),player2)
  else if inputKey = 115 then (player.turned 0 1,player2)
  else if inputKey = 100 then (player.turned 1 0,player2)
  else if inputKey = 97 then (player.turned (-1) 0,player2)
  else if inputKey = 105 then (player,player2.turned 0 (-1))
  else if inputKey = 107 then (player,player2.turned 0 1)
  else if inputKey = 108 then (player,player2.turned 1 0)
  else if inputKey = 106 then (player,player2.turned (-1) 0)
  else (player,player2)

def updatePlayer (player : Player) (playerAlive : Bool) : Player × Bool :=
  let position : Vector2 := ⟨player.position.x+player.speed.x,player.position.y+player.speed.y⟩
  ({ player with position },
    if position.x < 0 ∨ gameWidth < position.x ∨ position.y < 0 ∨ gameHeight < position.y then false
    else playerAlive)

def wrapped (i : ℕ) : ℕ := if tailLengthLimit ≤ i then 0 else i

def updateTail (player : Player) (tail : Tail) : Option Tail :=
  (tail.store tail.youngestElemIndex player.position).map (fun tail => { tail with
    youngestElemIndex := wrapped (tail.youngestElemIndex+1)
    oldestElemIndex := wrapped (tail.oldestElemIndex+1) })

def checkCollisionWithSnack (player : Player) (tail : Tail) (snack : Snack) (seconds : ℕ × ℕ) :
    Tail × Snack :=
  if player.position = snack.position then
    ({ tail with length := tail.length+1, youngestElemIndex := tail.youngestElemIndex+2 },
      { snack with position := ⟨(seconds.1%gameWidth : ℕ),(seconds.2%gameHeight : ℕ)⟩ })
  else (tail,snack)

def checkCollisionWithTail (player : Player) (tail : Tail) (playerAlive : Bool) : Option Bool :=
  tail.elements.map (fun positions => if player.position ∈ positions then false else playerAlive)

namespace Game
variable (s : Game)

def update (i : Input) : Option Game := do
  let tail ← updateTail s.player s.tail
  let tail2 ← updateTail s.player2 s.tail2
  let (player,playerAlive) := updatePlayer s.player s.playerAlive
  let (player2,playerAlive2) := updatePlayer s.player2 s.playerAlive2
  let (tail,snack) := checkCollisionWithSnack player tail s.snack i.seconds
  let (tail2,snack) := checkCollisionWithSnack player2 tail2 snack i.seconds2
  let playerAlive ← checkCollisionWithTail player tail playerAlive
  let playerAlive ← checkCollisionWithTail player tail2 playerAlive
  let playerAlive2 ← checkCollisionWithTail player2 tail2 playerAlive2
  let playerAlive2 ← checkCollisionWithTail player2 tail playerAlive2
  return ⟨player,player2,tail,tail2,snack,playerAlive,playerAlive2⟩

def draw : Option (List (UInt8 × Vector2)) := do
  let positions ← s.tail.elements
  let positions2 ← s.tail2.elements
  return positions.map (fun p => (s.tail.sprite,p))++positions2.map (fun p => (s.tail2.sprite,p))++
    [(s.player.sprite,s.player.position),(s.player2.sprite,s.player2.position),
      (s.snack.sprite,s.snack.position)]

def turned (inputKey : UInt8) : Game :=
  let (player,player2) := handleInput inputKey s.player s.player2
  { s with player, player2 }

/-- The body of the loop of `main`. -/
def round (i : Input) : Option Game :=
  ((s.turned i.inputKey).update i).bind (fun s => s.draw.map (fun _ => s))

def Going : Prop := s.playerAlive = true ∧ s.playerAlive2 = true

instance : Decidable s.Going := inferInstanceAs (Decidable (_ ∧ _))

/-- Inputs that come when the loop has been left change nothing. -/
def turn (i : Input) : Option Game := if s.Going then s.round i else some s

/-- The state in front of the loop, with whatever the two arrays hold. -/
def start (stale stale2 : ℕ → Vector2) : Game where
  player := ⟨88,⟨12,5⟩,⟨1,0⟩⟩
  player2 := ⟨35,⟨20,5⟩,⟨1,0⟩⟩
  tail := ⟨46,0,stale,0,0⟩
  tail2 := ⟨46,0,stale2,0,0⟩
  snack := ⟨111,⟨10,10⟩⟩
  playerAlive := true
  playerAlive2 := true

/-- The players where they are in this round when they meet the snack or not. -/
def moved (i : Input) : Player := (updatePlayer (s.turned i.inputKey).player s.playerAlive).1

def moved2 (i : Input) : Player := (updatePlayer (s.turned i.inputKey).player2 s.playerAlive2).1

def Eats (i : Input) : Prop := (s.moved i).position = s.snack.position

/-- The second player meets the snack where the first has left it. -/
def Eats2 (i : Input) : Prop :=
  (s.moved2 i).position = (checkCollisionWithSnack (s.moved i) s.tail s.snack i.seconds).2.position

end Game

/-- The place in the cycle of 160, with two rounds more for each snack that has been eaten. -/
def Tail.tick (tail : Tail) (rounds : ℕ) : ℕ := (rounds+2*tail.length)%tailLengthLimit

namespace Game

def EatsAt (s : Game) (i : Input) (rounds tick : ℕ) : Prop :=
  (s.Eats i ∧ s.tail.tick rounds = tick) ∨ (s.Eats2 i ∧ s.tail2.tick rounds = tick)

/-- All snacks are eaten in time: none at 158, and one at 157 only if no other round is played. -/
def InTime (stale stale2 : ℕ → Vector2) (inputs : List Input) : Prop :=
  ∀ pre i post s, inputs = pre++i::post → run turn (start stale stale2) pre = some s → s.Going →
    ¬ s.EatsAt i pre.length 158 ∧
      (s.EatsAt i pre.length 157 → ∀ t, s.turn i = some t → t.Going → post = [])

end Game

/-! ### The indices of a tail -/

theorem tailLengthLimit_pos : 0 < tailLengthLimit := by decide

namespace Tail
variable {tail tail' : Tail} {player : Player} {snack : Snack} {seconds : ℕ × ℕ} {eats : Prop}
  {rounds n i : ℕ}

def Bounded (tail : Tail) : Prop :=
  tail.oldestElemIndex < tailLengthLimit ∧ tail.youngestElemIndex ≤ tailLengthLimit

theorem loads_isSome : (∃ positions, tail.loads n i = some positions) ↔
    n = 0 ∨ i+n ≤ tailLengthLimit := by
  induction n generalizing i with
  | zero => exact iff_of_true ⟨_,rfl⟩ (Or.inl rfl)
  | succ n ih =>
    rw [loads,load,or_iff_right (Nat.succ_ne_zero n)]
    split_ifs with h
    · simp only [Option.bind_some,Option.map_eq_some_iff]
      constructor
      · rintro ⟨_,positions,hp,-⟩
        have hn := (ih (i := i+1)).mp ⟨positions,hp⟩
        omega
      · intro hn
        obtain ⟨positions,hp⟩ := (ih (i := i+1)).mpr (by omega)
        exact ⟨_,positions,hp,rfl⟩
    · rw [Option.bind_none]
      refine iff_of_false (fun ⟨_,hp⟩ => Option.some_ne_none _ hp.symm) ?_
      omega

/-- The loops stay inside the array as long as the younger index does not pass its end. -/
theorem elements_isSome (h : tail.oldestElemIndex < tailLengthLimit) :
    (∃ positions, tail.elements = some positions) ↔ tail.youngestElemIndex ≤ tailLengthLimit := by
  unfold elements
  rw [loads_isSome]
  omega

structure Next (tail tail' : Tail) (eats : Prop) : Prop where
  oldest : tail'.oldestElemIndex = wrapped (tail.oldestElemIndex+1)
  fed : eats → tail'.youngestElemIndex = wrapped (tail.youngestElemIndex+1)+2 ∧
    tail'.length = tail.length+1
  hungry : ¬ eats → tail'.youngestElemIndex = wrapped (tail.youngestElemIndex+1) ∧
    tail'.length = tail.length

/-- The younger index is inside the array, and a snack does not take it past its end. -/
def Spares (tail : Tail) (eats : Prop) : Prop :=
  tail.youngestElemIndex < tailLengthLimit ∧ (eats → tail.youngestElemIndex ≠ 158)

theorem updateTail_isSome : (∃ tail', updateTail player tail = some tail') ↔
    tail.youngestElemIndex < tailLengthLimit := by
  unfold updateTail store
  split_ifs with hi
  · exact iff_of_true ⟨_,rfl⟩ hi
  · exact iff_of_false (fun ⟨_,h⟩ => Option.some_ne_none _ h.symm) hi

theorem updateTail_next (h : updateTail player tail = some tail') (mover : Player) :
    Next tail (checkCollisionWithSnack mover tail' snack seconds).1
      (mover.position = snack.position) := by
  have hi := updateTail_isSome.mp ⟨tail',h⟩
  unfold updateTail store at h
  rw [if_pos hi,Option.map_some] at h
  cases h
  unfold checkCollisionWithSnack
  split_ifs with he
  · exact ⟨rfl,fun _ => ⟨rfl,rfl⟩,fun hn => absurd he hn⟩
  · exact ⟨rfl,fun h => absurd h he,fun _ => ⟨rfl,rfl⟩⟩

theorem wrapped_lt : wrapped i < tailLengthLimit := by
  unfold wrapped
  split_ifs with h
  · decide
  · exact Nat.lt_of_not_le h

theorem Next.bounded (h : Next tail tail' eats)
    (hy : tail'.youngestElemIndex ≤ tailLengthLimit) : tail'.Bounded := by
  refine ⟨?_,hy⟩
  rw [h.oldest]
  exact wrapped_lt

/-- From inside the array the younger index passes its end exactly if a snack is eaten at 158. -/
theorem Next.spares_iff (h : Next tail tail' eats) (hi : tail.youngestElemIndex < tailLengthLimit) :
    tail'.youngestElemIndex ≤ tailLengthLimit ↔ Spares tail eats := by
  unfold Spares
  by_cases he : eats
  · rw [(h.fed he).1]
    unfold wrapped tailLengthLimit at *
    split_ifs <;> grind
  · rw [(h.hungry he).1]
    exact iff_of_true (Nat.le_of_lt wrapped_lt) ⟨hi,fun h => absurd h he⟩

/-- It comes to lie on the end exactly if a snack is eaten at 157. -/
theorem Next.end_iff (h : Next tail tail' eats) (hi : tail.youngestElemIndex < tailLengthLimit) :
    tail'.youngestElemIndex = tailLengthLimit ↔ eats ∧ tail.youngestElemIndex = 157 := by
  by_cases he : eats
  · rw [(h.fed he).1,and_iff_right he]
    unfold wrapped tailLengthLimit at *
    split_ifs <;> omega
  · rw [(h.hungry he).1]
    exact iff_of_false (Nat.ne_of_lt wrapped_lt) (fun h => he h.1)

def Ticks (tail : Tail) (rounds : ℕ) : Prop :=
  tail.youngestElemIndex%tailLengthLimit = tail.tick rounds

theorem Next.ticks (h : Next tail tail' eats) (hi : tail.youngestElemIndex < tailLengthLimit)
    (ht : tail.Ticks rounds) : tail'.Ticks (rounds+1) := by
  unfold Ticks tick tailLengthLimit at *
  by_cases he : eats
  · obtain ⟨hy,hl⟩ := h.fed he
    unfold wrapped tailLengthLimit at hy
    split_ifs at hy <;> omega
  · obtain ⟨hy,hl⟩ := h.hungry he
    unfold wrapped tailLengthLimit at hy
    split_ifs at hy <;> omega

theorem Ticks.eq (h : tail.Ticks rounds) (hi : tail.youngestElemIndex < tailLengthLimit) :
    tail.tick rounds = tail.youngestElemIndex := h.symm.trans (Nat.mod_eq_of_lt hi)

end Tail

/-! ### A round of the game -/

namespace Game
variable {s t : Game} {i : Input} {rounds : ℕ} {stale stale2 : ℕ → Vector2} {inputs : List Input}

def Bounded (s : Game) : Prop := s.tail.Bounded ∧ s.tail2.Bounded

def Spares (s : Game) (i : Input) : Prop := s.tail.Spares (s.Eats i) ∧ s.tail2.Spares (s.Eats2 i)

theorem checkCollisionWithTail_isSome {player : Player} {tail : Tail} {playerAlive : Bool}
    (h : tail.oldestElemIndex < tailLengthLimit) :
    (∃ alive, checkCollisionWithTail player tail playerAlive = some alive) ↔
      tail.youngestElemIndex ≤ tailLengthLimit := by
  rw [← Tail.elements_isSome h]
  unfold checkCollisionWithTail
  simp only [Option.map_eq_some_iff]
  exact ⟨fun ⟨_,p,hp,_⟩ => ⟨p,hp⟩,fun ⟨p,hp⟩ => ⟨_,p,hp,rfl⟩⟩

/-- The four checks of `update`. -/
def collide (s : Game) : Option Game := do
  let playerAlive ← checkCollisionWithTail s.player s.tail s.playerAlive
  let playerAlive ← checkCollisionWithTail s.player s.tail2 playerAlive
  let playerAlive2 ← checkCollisionWithTail s.player2 s.tail2 s.playerAlive2
  let playerAlive2 ← checkCollisionWithTail s.player2 s.tail playerAlive2
  return { s with playerAlive, playerAlive2 }

def fed (s : Game) (i : Input) (tail tail2 : Tail) : Game :=
  let (tail,snack) := checkCollisionWithSnack (s.moved i) tail s.snack i.seconds
  let (tail2,snack) := checkCollisionWithSnack (s.moved2 i) tail2 snack i.seconds2
  { player := s.moved i, player2 := s.moved2 i, tail, tail2, snack
    playerAlive := (updatePlayer (s.turned i.inputKey).player s.playerAlive).2
    playerAlive2 := (updatePlayer (s.turned i.inputKey).player2 s.playerAlive2).2 }

theorem round_eq : s.round i = (updateTail (s.turned i.inputKey).player s.tail).bind (fun tail =>
    (updateTail (s.turned i.inputKey).player2 s.tail2).bind (fun tail2 =>
      ((s.fed i tail tail2).collide).bind (fun s => s.draw.map (fun _ => s)))) := by
  have hupdate : (s.turned i.inputKey).update i =
      (updateTail (s.turned i.inputKey).player s.tail).bind (fun tail =>
        (updateTail (s.turned i.inputKey).player2 s.tail2).bind (fun tail2 =>
          (s.fed i tail tail2).collide)) := rfl
  unfold round
  rw [hupdate]
  simp only [Option.bind_assoc]

/-- The checks stay inside the arrays if both tails end there, and leave the tails as they are. -/
theorem collide_draw (h : s.tail.oldestElemIndex < tailLengthLimit)
    (h2 : s.tail2.oldestElemIndex < tailLengthLimit)
    (ht : s.collide.bind (fun s => s.draw.map (fun _ => s)) = some t) :
    t.tail = s.tail ∧ t.tail2 = s.tail2 ∧ s.Bounded := by
  unfold collide draw at ht
  simp only [Option.bind_eq_bind,Option.bind_eq_some_iff,Option.map_eq_some_iff,Option.pure_def,
    Option.some.injEq] at ht
  obtain ⟨_,⟨_,hc,_,hc2,_,-,_,-,rfl⟩,_,-,rfl⟩ := ht
  exact ⟨rfl,rfl,⟨h,(checkCollisionWithTail_isSome h).mp ⟨_,hc⟩⟩,
    ⟨h2,(checkCollisionWithTail_isSome h2).mp ⟨_,hc2⟩⟩⟩

theorem collide_draw_isSome (h : s.Bounded) :
    ∃ t, s.collide.bind (fun s => s.draw.map (fun _ => s)) = some t := by
  obtain ⟨⟨ho,hy⟩,ho2,hy2⟩ := h
  have hcheck : ∀ player playerAlive, ∃ alive,
      checkCollisionWithTail player s.tail playerAlive = some alive :=
    fun _ _ => (checkCollisionWithTail_isSome ho).mpr hy
  have hcheck2 : ∀ player playerAlive, ∃ alive,
      checkCollisionWithTail player s.tail2 playerAlive = some alive :=
    fun _ _ => (checkCollisionWithTail_isSome ho2).mpr hy2
  obtain ⟨a,ha⟩ := hcheck s.player s.playerAlive
  obtain ⟨b,hb⟩ := hcheck2 s.player a
  obtain ⟨c,hc⟩ := hcheck2 s.player2 s.playerAlive2
  obtain ⟨d,hd⟩ := hcheck s.player2 c
  obtain ⟨positions,hp⟩ := (Tail.elements_isSome ho).mpr hy
  obtain ⟨positions2,hp2⟩ := (Tail.elements_isSome ho2).mpr hy2
  refine ⟨{ s with playerAlive := b, playerAlive2 := d },?_⟩
  unfold collide draw
  simp only [Option.bind_eq_bind,ha,hb,hc,hd,Option.bind_some,Option.pure_def,hp,hp2,Option.map_some]

/-- The place of the snack does not depend on the tail. -/
theorem checkCollisionWithSnack_snack (player : Player) (tail tail' : Tail) (snack : Snack)
    (seconds : ℕ × ℕ) : (checkCollisionWithSnack player tail snack seconds).2 =
      (checkCollisionWithSnack player tail' snack seconds).2 := by
  unfold checkCollisionWithSnack
  split_ifs <;> rfl

theorem fed_next {tail tail2 : Tail} (h : updateTail (s.turned i.inputKey).player s.tail = some tail)
    (h2 : updateTail (s.turned i.inputKey).player2 s.tail2 = some tail2) :
    Tail.Next s.tail (s.fed i tail tail2).tail (s.Eats i) ∧
      Tail.Next s.tail2 (s.fed i tail tail2).tail2 (s.Eats2 i) := by
  refine ⟨Tail.updateTail_next h _,?_⟩
  unfold Eats2
  rw [checkCollisionWithSnack_snack _ s.tail tail]
  exact Tail.updateTail_next h2 _

/-- A round that stays inside the arrays. -/
theorem round_next (h : s.round i = some t) : s.Spares i ∧ t.Bounded ∧
    Tail.Next s.tail t.tail (s.Eats i) ∧ Tail.Next s.tail2 t.tail2 (s.Eats2 i) := by
  rw [round_eq] at h
  simp only [Option.bind_eq_some_iff] at h
  obtain ⟨tail,ht,tail2,ht2,hrest⟩ := h
  obtain ⟨hn,hn2⟩ := fed_next ht ht2
  have hi := Tail.updateTail_isSome.mp ⟨tail,ht⟩
  have hi2 := Tail.updateTail_isSome.mp ⟨tail2,ht2⟩
  obtain ⟨he,he2,hb,hb2⟩ := collide_draw (hn.oldest ▸ Tail.wrapped_lt) (hn2.oldest ▸ Tail.wrapped_lt)
    (Option.bind_eq_some_iff.mpr hrest)
  refine ⟨⟨(hn.spares_iff hi).mp hb.2,(hn2.spares_iff hi2).mp hb2.2⟩,?_⟩
  unfold Bounded
  rw [he,he2]
  exact ⟨⟨hb,hb2⟩,hn,hn2⟩

theorem round_isSome (h : s.Spares i) : ∃ t, s.round i = some t := by
  obtain ⟨h,h2⟩ := h
  obtain ⟨tail,ht⟩ := Tail.updateTail_isSome.mpr h.1
  obtain ⟨tail2,ht2⟩ := Tail.updateTail_isSome.mpr h2.1
  obtain ⟨hn,hn2⟩ := fed_next ht ht2
  rw [round_eq,ht,ht2,Option.bind_some,Option.bind_some]
  exact collide_draw_isSome ⟨hn.bounded ((hn.spares_iff h.1).mpr h),
    hn2.bounded ((hn2.spares_iff h2.1).mpr h2)⟩

/-! ### Games -/

def Paced (s : Game) (rounds : ℕ) : Prop :=
  s.Bounded ∧ (s.Going → s.tail.Ticks rounds ∧ s.tail2.Ticks rounds)

theorem turn_going (h : s.Going) : s.turn i = s.round i := if_pos h

theorem turn_over (h : ¬ s.Going) : s.turn i = some s := if_neg h

theorem turn_paced (hp : s.Paced rounds) (h : s.turn i = some t) : t.Paced (rounds+1) := by
  by_cases hg : s.Going
  · rw [turn_going hg] at h
    obtain ⟨⟨hi,hi2⟩,hb,hn,hn2⟩ := round_next h
    obtain ⟨ht,ht2⟩ := hp.2 hg
    exact ⟨hb,fun _ => ⟨hn.ticks hi.1 ht,hn2.ticks hi2.1 ht2⟩⟩
  · rw [turn_over hg] at h
    cases h
    exact ⟨hp.1,fun h => absurd h hg⟩

theorem start_paced : (start stale stale2).Paced 0 :=
  ⟨⟨⟨tailLengthLimit_pos,Nat.zero_le _⟩,tailLengthLimit_pos,Nat.zero_le _⟩,fun _ => ⟨rfl,rfl⟩⟩

theorem run_paced (h : run turn (start stale stale2) inputs = some s) : s.Paced inputs.length := by
  have hstep : ∀ tr s i t, Paced s (List.length tr) → turn s i = some t →
      Paced t (tr++[i]).length := by
    intro tr s i t hp ht
    rw [List.length_append]
    exact turn_paced hp ht
  exact trace_invariant (I := fun tr s => Paced s (List.length tr)) hstep [] start_paced h

/-- From inside the arrays a snack spares them exactly if it is not eaten at 158. -/
theorem spares_iff (hi : s.tail.youngestElemIndex < tailLengthLimit)
    (hi2 : s.tail2.youngestElemIndex < tailLengthLimit) (ht : s.tail.Ticks rounds)
    (ht2 : s.tail2.Ticks rounds) : s.Spares i ↔ ¬ s.EatsAt i rounds 158 := by
  unfold Spares EatsAt Tail.Spares
  rw [ht.eq hi,ht2.eq hi2]
  tauto

/-- A snack that is eaten at 157 leaves an index at the end. -/
theorem end_iff (h : s.round i = some t) (ht : s.tail.Ticks rounds) (ht2 : s.tail2.Ticks rounds) :
    (t.tail.youngestElemIndex = tailLengthLimit ∨ t.tail2.youngestElemIndex = tailLengthLimit) ↔
      s.EatsAt i rounds 157 := by
  obtain ⟨⟨hi,hi2⟩,-,hn,hn2⟩ := round_next h
  unfold EatsAt
  rw [ht.eq hi.1,ht2.eq hi2.1,hn.end_iff hi.1,hn2.end_iff hi2.1]

def Ready (s : Game) (post : List Input) : Prop := s.Going → post ≠ [] →
  s.tail.youngestElemIndex < tailLengthLimit ∧ s.tail2.youngestElemIndex < tailLengthLimit

theorem run_of_inTime (h : InTime stale stale2 inputs) {pre post : List Input}
    (he : inputs = pre++post) (hr : run turn (start stale stale2) pre = some s)
    (hready : s.Ready post) : ∃ t, run turn s post = some t := by
  induction post generalizing pre s with
  | nil => exact ⟨s,rfl⟩
  | cons i post ih =>
    have hp := run_paced hr
    have happ : inputs = (pre++[i])++post := by rw [he,List.append_assoc]; rfl
    by_cases hg : s.Going
    · obtain ⟨hi,hi2⟩ := hready hg (List.cons_ne_nil _ _)
      obtain ⟨ht,ht2⟩ := hp.2 hg
      obtain ⟨h158,h157⟩ := h pre i post s he hr hg
      obtain ⟨t,hround⟩ := round_isSome ((spares_iff hi hi2 ht ht2).mpr h158)
      have hturn : s.turn i = some t := (turn_going hg).trans hround
      have hready' : t.Ready post := by
        intro hgt hne
        have hnot : ¬ s.EatsAt i pre.length 157 := fun h => hne (h157 h t hturn hgt)
        rw [← end_iff hround ht ht2,not_or] at hnot
        obtain ⟨-,⟨hb,hb2⟩,-⟩ := round_next hround
        exact ⟨Nat.lt_of_le_of_ne hb.2 hnot.1,Nat.lt_of_le_of_ne hb2.2 hnot.2⟩
      obtain ⟨u,hu⟩ := ih happ (run_append.mpr ⟨s,hr,run_cons.mpr ⟨t,hturn,rfl⟩⟩) hready'
      exact ⟨u,run_cons.mpr ⟨t,hturn,hu⟩⟩
    · have hturn := turn_over (i := i) hg
      obtain ⟨u,hu⟩ := ih happ (run_append.mpr ⟨s,hr,run_cons.mpr ⟨s,hturn,rfl⟩⟩)
        (fun h => absurd h hg)
      exact ⟨u,run_cons.mpr ⟨s,hturn,hu⟩⟩

theorem inTime_of_run {u : Game} (hu : run turn (start stale stale2) inputs = some u) :
    InTime stale stale2 inputs := by
  intro pre i post s he hr hg
  obtain ⟨-,hticks⟩ := run_paced hr
  obtain ⟨ht,ht2⟩ := hticks hg
  rw [he] at hu
  obtain ⟨s',hr',hu⟩ := run_append.mp hu
  obtain rfl : s = s' := Option.some.inj (hr.symm.trans hr')
  obtain ⟨t,hturn,hpost⟩ := run_cons.mp hu
  have hround := (turn_going hg).symm.trans hturn
  have hspares := (round_next hround).1
  refine ⟨(spares_iff hspares.1.1 hspares.2.1 ht ht2).mp hspares,fun h157 t' ht' hgt => ?_⟩
  obtain rfl : t = t' := Option.some.inj (hturn.symm.trans ht')
  cases post with
  | nil => rfl
  | cons j post =>
    -- the next round stores at the end of an array
    obtain ⟨v,hv,-⟩ := run_cons.mp hpost
    obtain ⟨⟨hi,hi2⟩,-⟩ := round_next ((turn_going hgt).symm.trans hv)
    exact ((end_iff hround ht ht2).mpr h157).elim (fun h => absurd h (Nat.ne_of_lt hi.1))
      (fun h => absurd h (Nat.ne_of_lt hi2.1))

/-- Every access to the tails lies inside the arrays exactly if all snacks are eaten in time. -/
theorem tail_bounds (stale stale2 : ℕ → Vector2) (inputs : List Input) :
    (∃ s, run turn (start stale stale2) inputs = some s) ↔ InTime stale stale2 inputs :=
  ⟨fun ⟨_,h⟩ => inTime_of_run h,
    fun h => run_of_inTime h (List.nil_append inputs).symm (run_nil _)
      (fun _ _ => ⟨tailLengthLimit_pos,tailLengthLimit_pos⟩)⟩

def idle (n : ℕ) : List Input := List.replicate n ⟨0,(0,0),(0,0)⟩

def press (inputKey : UInt8) : List Input := [⟨inputKey,(0,0),(0,0)⟩]

/-- Both players wander about, and the first one eats the snack in round 159. -/
def lateMeal : List Input := idle 59++press 106++idle 6++press 115++idle 14++press 97++idle 47++
  press 108++idle 19++press 119++idle 9

theorem not_tail_bounds : ¬ ∀ (stale stale2 : ℕ → Vector2) (inputs : List Input),
    ∃ s, run turn (start stale stale2) inputs = some s := by
  intro h
  obtain ⟨s,hs⟩ := h (fun _ => ⟨0,0⟩) (fun _ => ⟨0,0⟩) lateMeal
  have hnone : run turn (start (fun _ => ⟨0,0⟩) (fun _ => ⟨0,0⟩)) lateMeal = none := by decide +kernel
  exact Option.some_ne_none s (hs.symm.trans hnone)

end Game
end ComplexOS.Snek
