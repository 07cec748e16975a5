import ComplexOS.Modules.ModuleImage

/-! # What `memcpy` copies

Both loops run forwards, and words are only copied between addresses that are a multiple
of four apart. So both leave the forward copy of `ByteMemory`, also where the areas meet.
-/
namespace ComplexOS.ModuleLoader
open ByteMemory
variable {m : ℕ → UInt8} {destination source n i : ℕ}

theorem copyBytes_eq : copyBytes destination source n i (copied m destination source i) =
    copied m destination source (i+n) := by
  induction n generalizing i with
  | zero => rfl
  | succ n ih =>
    have hread : copied m destination source i (source+i) = m (origin destination source i) :=
      copied_read le_rfl (by omega)
    rw [copyBytes,hread,copied_succ,ih]
    congr 1
    omega

/-- Inside a word no byte is read after it has been written. -/
theorem copyWords_step (hd : destination % 4 = 0) (hs : source % 4 = 0) :
    place (copied m destination source (4*i)) (destination+4*i)
      [copied m destination source (4*i) (source+4*i),
        copied m destination source (4*i) (source+4*i+1),
        copied m destination source (4*i) (source+4*i+2),
        copied m destination source (4*i) (source+4*i+3)] =
      copied m destination source (4*(i+1)) := by
  have hread : ∀ j < 4, copied m destination source (4*i) (source+(4*i+j)) =
      m (origin destination source (4*i+j)) :=
    fun j hj => copied_read (by omega) (by omega)
  have h0 := hread 0 (by omega)
  have h1 := hread 1 (by omega)
  have h2 := hread 2 (by omega)
  have h3 := hread 3 (by omega)
  simp only [Nat.add_zero,← Nat.add_assoc] at h0 h1 h2 h3
  rw [h0,h1,h2,h3]
  simp only [place]
  have hnext : ∀ j, Function.update (copied m destination source (4*i+j)) (destination+4*i+j)
      (m (origin destination source (4*i+j))) = copied m destination source (4*i+j+1) := by
    intro j
    rw [Nat.add_assoc destination,copied_succ]
  have hone := hnext 0
  rw [Nat.add_zero,Nat.add_zero] at hone
  rw [hone,hnext 1,Nat.add_assoc (destination+4*i) 1 1,hnext 2,
    Nat.add_assoc (destination+4*i) (1+1) 1,hnext 3]
  rfl

theorem copyWords_eq (hd : destination % 4 = 0) (hs : source % 4 = 0) :
    copyWords destination source n i (copied m destination source (4*i)) =
      copied m destination source (4*(i+n)) := by
  induction n generalizing i with
  | zero => rfl
  | succ n ih =>
    rw [copyWords,copyWords_step hd hs,ih]
    congr 1
    omega

theorem copyBytes_copied : copyBytes destination source n 0 m = copied m destination source n := by
  have h : copyBytes destination source n 0 (copied m destination source 0) =
      copied m destination source (0+n) := copyBytes_eq
  rwa [copied_zero,Nat.zero_add] at h

theorem copyWords_copied (hd : destination % 4 = 0) (hs : source % 4 = 0) :
    copyWords destination source n 0 m = copied m destination source (4*n) := by
  have h : copyWords destination source n 0 (copied m destination source (4*0)) =
      copied m destination source (4*(0+n)) := copyWords_eq hd hs
  rwa [Nat.mul_zero,copied_zero,Nat.zero_add] at h

theorem memcpy_eq : memcpy m destination source n = copied m destination source n := by
  unfold memcpy
  split_ifs with halign
  · obtain ⟨hd,hs,hn⟩ := halign
    rw [copyWords_copied hd hs]
    congr 1
    omega
  · exact copyBytes_copied

/-- Where the copy does not run into bytes that it has still to read, the destination has the
bytes of the source as they were. -/
theorem copied_source {k : ℕ} (h : destination ≤ source ∨ source+n ≤ destination) (hk : k < n) :
    copied m destination source n (destination+k) = m (source+k) := by
  rw [copied_at hk,origin_eq (by omega)]

/-- Between multiples of four the loop over words does what the loop over bytes does, however
the areas overlap. -/
theorem memcpy_words (hd : destination % 4 = 0) (hs : source % 4 = 0) (hn : n % 4 = 0) :
    copyWords destination source (n/4) 0 m = copyBytes destination source n 0 m ∧
      ((destination ≤ source ∨ destination+n ≤ source ∨ source+n ≤ destination) →
        ∀ k < n, copyWords destination source (n/4) 0 m (destination+k) = m (source+k)) := by
  have hwords : copyWords destination source (n/4) 0 m = copied m destination source n := by
    rw [copyWords_copied hd hs]
    congr 1
    omega
  rw [hwords]
  refine ⟨copyBytes_copied.symm,fun h k hk => copied_source ?_ hk⟩
  omega

/-- Two words over each other, one word to the left. -/
theorem memcpy_words_left : copyWords 0 4 2 0 UInt8.ofNat = copyBytes 0 4 8 0 UInt8.ofNat ∧
    copyWords 0 4 2 0 UInt8.ofNat 3 = 7 := by
  obtain ⟨heq,hsource⟩ := memcpy_words (m := UInt8.ofNat) (show 0 % 4 = 0 by decide)
    (show 4 % 4 = 0 by decide) (show 8 % 4 = 0 by decide)
  exact ⟨heq,hsource (Or.inl (by decide)) 3 (by decide)⟩

end ComplexOS.ModuleLoader
