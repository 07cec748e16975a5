import ComplexOS.Bootloader.FileStore
import ComplexOS.Library.ByteMemory
import ComplexOS.Library.Runs
import ComplexOS.Library.WrappedInts

/-! # The file system of the boot disk

`bmfs.c`. The directory has `64` entries; it ends at the first one whose name starts with
`0x00`, and an entry whose name starts with `0x01` is a deleted one.
-/
namespace ComplexOS
open ByteMemory

/-- `FileName` up to its NUL. -/
structure BMFSEntry where
  fileName : List UInt8
  startingBlock : ℕ
  reservedBlocks : ℕ
  fileSize : ℕ
  deriving DecidableEq

structure Bmfs where
  disksize : ℕ
  directory : List BMFSEntry
  disk : ℕ → UInt8

namespace BMFSEntry
variable (e : BMFSEntry)

/-- `FileName[0] == 0x00`. -/
def ends : Bool := decide (e.fileName = [])
/-- `FileName[0] == 0x01`. -/
def deleted : Bool := decide (e.fileName.head? = some 1)

def behind : ℕ := e.startingBlock+e.reservedBlocks

end BMFSEntry

namespace Bmfs
variable (sort : List BMFSEntry → List BMFSEntry) (s : Bmfs)

/-- The difference of two `unsigned long long`. -/
def minus (x y : ℕ) : ℕ := (x+2^64-y)%2^64

def findLoop (filename : List UInt8) : List BMFSEntry → ℕ → Option (ℕ × BMFSEntry)
  | [], _ => none
  | e::es, tint =>
    if e.ends then none
    else if e.deleted then findLoop filename es (tint+1)
    else if filename = e.fileName then some (tint,e)
    else findLoop filename es (tint+1)

def findfile (filename : List UInt8) : Option (ℕ × BMFSEntry) := findLoop filename s.directory 0

/-- `num_used_entries` and `first_free_entry`. Without an end marker the former stays `0`. -/
def countLoop : List BMFSEntry → ℕ → Option ℕ → ℕ × Option ℕ
  | [], _, firstFree => (0,firstFree)
  | e::es, tint, firstFree =>
    if e.ends then (tint,firstFree.or (some tint))
    else countLoop es (tint+1) (if e.deleted then firstFree.or (some tint) else firstFree)

/-- The order of `qsort`: deleted entries last, the others by their first blocks. -/
def startingBlockCmp (a b : BMFSEntry) : ℤ :=
  if a.deleted then 1
  else if b.deleted then -1
  else WrappedInts.wrap (a.startingBlock-b.startingBlock)

/-- `new_file_start`, which stays `0` if no area is large enough. -/
def searchLoop (numBlocks blocksRequested : ℕ) : List BMFSEntry → ℕ → ℕ
  | [], prevFileEnd =>
    if blocksRequested ≤ minus (minus numBlocks 1) prevFileEnd then prevFileEnd else 0
  | e::es, prevFileEnd =>
    let thisFileStart := if e.deleted then minus numBlocks 1 else e.startingBlock
    if blocksRequested ≤ minus thisFileStart prevFileEnd then prevFileEnd
    else searchLoop numBlocks blocksRequested es ((e.startingBlock+e.reservedBlocks)%2^64)

/-- An entry is put where there is none; behind the last one the end is marked anew. -/
def addEntry (used free : ℕ) (e : BMFSEntry) : List BMFSEntry :=
  if free = used ∧ used+1 < 64 then
    (s.directory.set free e).modify (used+1) (fun x => { x with fileName := [] })
  else s.directory.set free e

def create (filename : List UInt8) (size : ℕ) : BmfsAnswer × Bmfs :=
  let maxsize := if size%2 ≠ 0 then size+1 else size
  match s.findfile filename with
  | some _ => (.alreadyExists,s)
  | none =>
    match countLoop s.directory 0 none with
    | (_,none) => (.noEntries,s)
    | (used,some free) =>
      let start := searchLoop (s.disksize/2) (maxsize/2) (sort (s.directory.take used)) 1
      if start = 0 then (.noArea,s)
      else (.complete,{ s with directory := s.addEntry used free ⟨filename,start,maxsize/2,0⟩ })

def contentsOf (disk : ℕ → UInt8) (e : BMFSEntry) : List UInt8 :=
  (List.range e.fileSize).map (fun i => disk (e.startingBlock*blockSize+i))

def read (filename : List UInt8) : BmfsAnswer :=
  match s.findfile filename with
  | none => .notFound
  | some (_,e) => .contents (contentsOf s.disk e)

def write (filename contents : List UInt8) : BmfsAnswer × Bmfs :=
  match s.findfile filename with
  | none => (.notFound,s)
  | some (slot,e) =>
    if e.reservedBlocks*blockSize%2^64 < contents.length then (.noRoom,s)
    else (.complete,{ s with
      disk := place s.disk (e.startingBlock*blockSize) contents
      directory := s.directory.set slot { e with fileSize := contents.length } })

def delete (filename : List UInt8) : BmfsAnswer × Bmfs :=
  match s.findfile filename with
  | none => (.notFound,s)
  | some (slot,e) => (.complete,{ s with
      directory := s.directory.set slot { e with fileName := 1::e.fileName.tail } })

def format : Bmfs := { s with directory := List.replicate 64 ⟨[],0,0,0⟩ }

/-- One call of the program. A size is an `int`, and so is the counter of the bytes of a file
that is written. -/
def step : BmfsCommand → Option (BmfsAnswer × Bmfs)
  | .format => some (.complete,s.format)
  | .create name maxsize =>
    if 2^31 ≤ maxsize then none
    else if maxsize < 1 then some (.invalidSize,s)
    else some (create sort s name.bytes maxsize)
  | .read name => some (s.read name.bytes,s)
  | .write name contents =>
    if 2^31 ≤ contents.length then none else some (s.write name.bytes contents)
  | .delete name => some (s.delete name.bytes)

def used (directory : List BMFSEntry) : List BMFSEntry := directory.takeWhile (fun e => !e.ends)

def live (directory : List BMFSEntry) : List BMFSEntry :=
  (used directory).filter (fun e => !e.deleted)

def fileOf (disk : ℕ → UInt8) (e : BMFSEntry) : BmfsFile :=
  ⟨e.fileName,e.startingBlock,e.reservedBlocks,contentsOf disk e⟩

def files : List BmfsFile := (live s.directory).map (fileOf s.disk)

/-- The last block is not used. -/
def limit : ℕ := s.disksize/2-1

variable {s} {directory pre post l : List BMFSEntry} {e d : BMFSEntry} {filename : List UInt8}
  {slot tint : ℕ} {f : Option ℕ} {disk disk' : ℕ → UInt8}

/-! ### The directory -/

theorem used_append (h : ∀ x ∈ pre, x.ends = false) : used (pre++l) = pre++used l :=
  List.takeWhile_append_of_pos (fun x hx => by rw [h x hx]; rfl)

theorem used_cons (h : e.ends = false) : used (e::l) = e::used l :=
  List.takeWhile_cons_of_pos (by rw [h]; rfl)

theorem used_ended (h : e.ends = true) : used (e::l) = [] :=
  List.takeWhile_cons_of_neg (by rw [h]; exact Bool.false_ne_true)

theorem used_all (h : ∀ x ∈ l, x.ends = false) : used l = l := by
  have happ := used_append (l := []) h
  rw [List.append_nil] at happ
  exact happ.trans (List.append_nil l)

theorem live_append (h : ∀ x ∈ pre, x.ends = false) :
    live (pre++l) = pre.filter (fun x => !x.deleted)++live l := by
  rw [live,used_append h,List.filter_append,live]

theorem live_cons (h : e.ends = false) (hd : e.deleted = false) : live (e::l) = e::live l := by
  rw [live,used_cons h,List.filter_cons_of_pos (by rw [hd]; rfl),live]

theorem live_deleted (h : e.ends = false) (hd : e.deleted = true) : live (e::l) = live l := by
  rw [live,used_cons h,List.filter_cons_of_neg (by rw [hd]; exact Bool.false_ne_true),live]

theorem live_ended (h : e.ends = true) : live (e::l) = [] := by
  rw [live,used_ended h,List.filter_nil]

theorem mem_live : e ∈ live directory ↔ e ∈ used directory ∧ e.deleted = false := by
  rw [live,List.mem_filter,Bool.not_eq_eq_eq_not,Bool.not_true]

structure At (directory pre post : List BMFSEntry) (slot : ℕ) (e : BMFSEntry) : Prop where
  split : directory = pre++e::post
  slot : slot = pre.length
  before : ∀ x ∈ pre, x.ends = false

theorem At.set (h : At directory pre post slot e) (d : BMFSEntry) :
    At (directory.set slot d) pre post slot d := by
  refine ⟨?_,h.slot,h.before⟩
  rw [h.split,h.slot,List.set_append_right _ _ le_rfl,Nat.sub_self,List.set_cons_zero]

/-- What `findfile` finds is a file. -/
theorem findLoop_some (h : findLoop filename directory tint = some (slot,e)) :
    ∃ pre post, At directory pre post (slot-tint) e ∧ tint ≤ slot ∧ e.ends = false ∧
      e.deleted = false ∧ e.fileName = filename := by
  induction directory generalizing tint with
  | nil => cases h
  | cons x xs ih =>
    rw [findLoop] at h
    split at h
    · cases h
    · rename_i hx
      rw [Bool.not_eq_true] at hx
      have hnext : findLoop filename xs (tint+1) = some (slot,e) → ∃ pre post,
          At (x::xs) pre post (slot-tint) e ∧ tint ≤ slot ∧ e.ends = false ∧ e.deleted = false ∧
            e.fileName = filename := by
        intro h
        obtain ⟨pre,post,hat,hle,hrest⟩ := ih h
        refine ⟨x::pre,post,⟨?_,?_,?_⟩,by omega,hrest⟩
        · rw [hat.split,List.cons_append]
        · have := hat.slot
          rw [List.length_cons]
          omega
        · intro y hy
          rcases List.mem_cons.mp hy with rfl | hy
          · exact hx
          · exact hat.before y hy
      split at h
      · exact hnext h
      · rename_i hd
        rw [Bool.not_eq_true] at hd
        split at h
        · rename_i hname
          obtain ⟨rfl,rfl⟩ := Prod.mk.inj (Option.some.inj h)
          exact ⟨[],xs,⟨rfl,Nat.sub_self _,by simp⟩,le_rfl,hx,hd,hname.symm⟩
        · exact hnext h

theorem findLoop_none (h : findLoop filename directory tint = none) :
    ∀ e ∈ live directory, e.fileName ≠ filename := by
  induction directory generalizing tint with
  | nil => simp [live,used]
  | cons x xs ih =>
    rw [findLoop] at h
    split at h
    · rename_i hx
      rw [live_ended hx]
      simp
    · rename_i hx
      rw [Bool.not_eq_true] at hx
      split at h
      · rename_i hd
        rw [live_deleted hx hd]
        exact ih h
      · rename_i hd
        rw [Bool.not_eq_true] at hd
        split at h
        · cases h
        · rename_i hname
          rw [live_cons hx hd]
          intro y hy
          rcases List.mem_cons.mp hy with rfl | hy
          · exact fun he => hname he.symm
          · exact ih h y hy

theorem countLoop_skip (h : ∀ x ∈ pre, x.ends = false) (hd : ∀ x ∈ pre, x.deleted = false) :
    countLoop (pre++l) tint f = countLoop l (tint+pre.length) f := by
  induction pre generalizing tint with
  | nil => rfl
  | cons x xs ih =>
    have hmem := List.mem_cons_self (a := x) (l := xs)
    rw [List.cons_append,countLoop,h x hmem,hd x hmem,if_neg Bool.false_ne_true,
      if_neg Bool.false_ne_true,ih (fun y hy => h y (List.mem_cons_of_mem _ hy))
      (fun y hy => hd y (List.mem_cons_of_mem _ hy)),List.length_cons,Nat.add_assoc,
      Nat.add_comm 1 xs.length]

theorem countLoop_marked {i : ℕ} (h : ∀ x ∈ pre, x.ends = false) :
    countLoop (pre++l) tint (some i) = countLoop l (tint+pre.length) (some i) := by
  induction pre generalizing tint with
  | nil => rfl
  | cons x xs ih =>
    rw [List.cons_append,countLoop,h x List.mem_cons_self,Option.some_or,ite_self,
      ih (fun y hy => h y (List.mem_cons_of_mem _ hy)),List.length_cons,Nat.add_assoc,
      Nat.add_comm 1 xs.length]
    rfl

/-- The first deleted entry is the one that is taken. -/
theorem countLoop_deleted (h : At directory pre post slot d) (hpre : ∀ x ∈ pre, x.deleted = false)
    (he : d.ends = false) (hd : d.deleted = true) :
    countLoop directory 0 none = countLoop post (slot+1) (some slot) := by
  rw [h.split,countLoop_skip h.before hpre,countLoop,he,hd,h.slot,Nat.zero_add]
  rfl

theorem contentsOf_congr (h : ∀ i < e.fileSize, disk' (e.startingBlock*blockSize+i) =
    disk (e.startingBlock*blockSize+i)) : contentsOf disk' e = contentsOf disk e :=
  List.map_congr_left (fun i hi => h i (List.mem_range.mp hi))

end Bmfs
end ComplexOS
