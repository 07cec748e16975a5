import ComplexOS.Modules.MemoryCopy
import ComplexOS.Terminal.Screen

/-! # Scrolling as a copy

`shiftScreen` copies the rows below the first one over the screen with `memcpy`, to the left
and over each other. The bytes of a cell are its character and its style.
-/
namespace ComplexOS.Screen
open ModuleLoader

def cellSize : ℕ := 2

def byteAt (s : Screen) (x : ℕ) : UInt8 :=
  if x % cellSize = 0 then (s.video (x/cellSize)).ch else (s.video (x/cellSize)).style

variable {s : Screen} {m : ℕ → UInt8} {video x : ℕ}

theorem byteAt_shiftScreen (hx : x < cellSize*width*(height-1)) :
    s.shiftScreen.byteAt x = s.byteAt (cellSize*width+x) := by
  have hrow : x/2 < width*(height-1) := by
    simp only [cellSize,width,height] at hx ⊢
    omega
  have hmod : (2*width+x) % 2 = x % 2 := by omega
  have hdiv : (2*width+x)/2 = x/2+width := by omega
  unfold byteAt shiftScreen cellSize
  dsimp only
  rw [if_pos hrow,hmod,hdiv]

/-- The `memcpy` of `shiftScreen` leaves the rows of the model. -/
theorem shiftScreen_memcpy (hs : ∀ x < cellSize*width*height, m (video+x) = s.byteAt x)
    (hx : x < cellSize*width*(height-1)) :
    memcpy m video (video+cellSize*width) (cellSize*width*(height-1)) (video+x) =
      s.shiftScreen.byteAt x := by
  have hin : cellSize*width+x < cellSize*width*height := by
    simp only [cellSize,width,height] at hx ⊢
    omega
  rw [memcpy_eq,copied_source (Or.inl (Nat.le_add_right _ _)) hx,Nat.add_assoc,hs _ hin,
    byteAt_shiftScreen hx]

end ComplexOS.Screen
