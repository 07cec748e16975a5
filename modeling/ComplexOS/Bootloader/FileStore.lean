import ComplexOS.Library.Extents
import Mathlib.Data.List.Nodup

/-! # What the file system of the boot disk is for

A set of named files with their contents. Each file has blocks of its own, taken at the lowest
place where enough of them are free; there are at most `64` files.
-/
namespace ComplexOS

/-- A name that fits its field and is not taken for one of the two markers. -/
structure EntryName where
  bytes : List UInt8
  notEnd : bytes ≠ []
  notDeleted : bytes.head? ≠ some 1
  noNul : 0 ∉ bytes
  short : bytes.length < 32

inductive BmfsCommand
  | format
  | create (name : EntryName) (maxsize : ℕ)
  | read (name : EntryName)
  | write (name : EntryName) (contents : List UInt8)
  | delete (name : EntryName)

inductive BmfsAnswer
  | complete
  | contents (bytes : List UInt8)
  | invalidSize
  | alreadyExists
  | noEntries
  | noArea
  | notFound
  | noRoom
  deriving DecidableEq, Repr

def blockSize : ℕ := 2097152

structure BmfsFile where
  name : List UInt8
  start : ℕ
  reserved : ℕ
  contents : List UInt8
  deriving DecidableEq, Repr

namespace FileStore
variable (limit : ℕ) (files : List BmfsFile)

def lo (f : BmfsFile) : ℕ := f.start
def hi (f : BmfsFile) : ℕ := f.start+f.reserved

def find (name : List UInt8) : Option BmfsFile := files.find? (fun f => decide (f.name = name))

/-- Block `0` belongs to the file system, and so do those from `limit` on. -/
def create (name : List UInt8) (blocks : ℕ) : BmfsAnswer × List BmfsFile :=
  if (find files name).isSome then (.alreadyExists,files)
  else if 64 ≤ files.length then (.noEntries,files)
  else
    match Extents.lowest lo hi blocks limit 1 files with
    | none => (.noArea,files)
    | some b => (.complete,⟨name,b,blocks,[]⟩::files)

def write (name contents : List UInt8) : BmfsAnswer × List BmfsFile :=
  match find files name with
  | none => (.notFound,files)
  | some f =>
    if f.reserved*blockSize < contents.length then (.noRoom,files)
    else (.complete,files.map (fun g => if g.name = name then { g with contents := contents } else g))

def read (name : List UInt8) : BmfsAnswer :=
  match find files name with
  | none => .notFound
  | some f => .contents f.contents

def delete (name : List UInt8) : BmfsAnswer × List BmfsFile :=
  if (find files name).isSome then (.complete,files.filter (fun f => decide (f.name ≠ name)))
  else (.notFound,files)

def step : BmfsCommand → BmfsAnswer × List BmfsFile
  | .format => (.complete,[])
  | .create name maxsize =>
    if maxsize < 1 then (.invalidSize,files) else create limit files name.bytes ((maxsize+1)/2)
  | .read name => (read files name.bytes,files)
  | .write name contents => write files name.bytes contents
  | .delete name => delete files name.bytes

variable {limit files} {files' : List BmfsFile} {name : List UInt8}

/-! ### The order of the files does not matter -/

theorem find_eq_some {f : BmfsFile} (hn : (files.map BmfsFile.name).Nodup) :
    find files name = some f ↔ f ∈ files ∧ f.name = name := by
  constructor
  · exact fun h => ⟨List.mem_of_find?_eq_some h,by simpa using List.find?_some h⟩
  · rintro ⟨hf,rfl⟩
    have hsome : (find files f.name).isSome := by
      rw [find,List.find?_isSome]
      exact ⟨f,hf,decide_eq_true rfl⟩
    obtain ⟨g,hg⟩ := Option.isSome_iff_exists.mp hsome
    have hname : g.name = f.name := by simpa using List.find?_some hg
    rw [hg,List.inj_on_of_nodup_map hn (List.mem_of_find?_eq_some hg) hf hname]

theorem find_perm (h : files.Perm files') (hn : (files.map BmfsFile.name).Nodup) :
    find files name = find files' name := by
  have hn' : (files'.map BmfsFile.name).Nodup := ((h.map _).nodup_iff).mp hn
  ext f
  rw [find_eq_some hn,find_eq_some hn',h.mem_iff]

/-- The same answer, and the same files. -/
theorem step_perm (h : files.Perm files') (hn : (files.map BmfsFile.name).Nodup)
    (c : BmfsCommand) : (step limit files c).1 = (step limit files' c).1 ∧
      (step limit files c).2.Perm (step limit files' c).2 := by
  cases c with
  | format => exact ⟨rfl,List.Perm.refl _⟩
  | create name maxsize =>
    rw [step,step]
    split
    · exact ⟨rfl,h⟩
    · rw [create,create,find_perm h hn,h.length_eq,Extents.lowest_congr (fun _ => h.mem_iff)]
      split
      · exact ⟨rfl,h⟩
      · split
        · exact ⟨rfl,h⟩
        · split
          · exact ⟨rfl,h⟩
          · exact ⟨rfl,h.cons _⟩
  | read name =>
    refine ⟨?_,h⟩
    show read files name.bytes = read files' name.bytes
    rw [read,read,find_perm h hn]
  | write name contents =>
    rw [step,step,write,write,find_perm h hn]
    split
    · exact ⟨rfl,h⟩
    · split
      · exact ⟨rfl,h⟩
      · exact ⟨rfl,h.map _⟩
  | delete name =>
    rw [step,step,delete,delete,find_perm h hn]
    split
    · exact ⟨rfl,h.filter _⟩
    · exact ⟨rfl,h⟩

end FileStore
end ComplexOS
