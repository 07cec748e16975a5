import ComplexOS.Bootloader.Bmfs
import ComplexOS.Library.Rings
import Mathlib.Data.List.Sort

/-! # The files of the boot disk

The program keeps its files as the file store does exactly while no file is created that can
only be put over others: where the end of the deleted entries is taken for the end of the
files, or where a directory without an end marker is taken for an empty one.
-/
namespace ComplexOS.Bmfs
open ByteMemory

/-- `qsort` puts into order what can be compared; of two deleted entries each is greater than
the other. -/
def Sorts (sort : List BMFSEntry → List BMFSEntry) : Prop :=
  ∀ l, (∀ e ∈ l, e.startingBlock < 2^31) → (sort l).Perm l ∧
    (sort l).Pairwise (fun a b => startingBlockCmp a b ≤ 0 ∨ (a.deleted = true ∧ b.deleted = true))

def Clear (entries : List BMFSEntry) (b n : ℕ) : Prop :=
  Extents.Clear BMFSEntry.startingBlock BMFSEntry.behind entries b n

def Room (s : Bmfs) (blocks : ℕ) : Prop :=
  ∃ b, 1 ≤ b ∧ b+blocks ≤ s.limit ∧ Clear (live s.directory) b blocks

/-- Where blocks are asked for, there are some, or no deleted entry makes believe so; and
where the directory has no end marker, its first blocks are free, or too few, and its first
entry is not the one that is taken. -/
def Sound (s : Bmfs) : BmfsCommand → Prop
  | .create name maxsize =>
    let blocks := (maxsize+1)/2
    maxsize < 1 ∨ (s.findfile name.bytes).isSome ∨
      (∀ e ∈ s.directory, e.ends = false ∧ e.deleted = false) ∨
      if ∃ e ∈ s.directory, e.ends = true then
        Room s blocks ∨ ∀ e ∈ used s.directory, e.deleted = true → s.limit < e.behind+blocks
      else s.limit < 1+blocks ∨ (Clear (live s.directory) 1 blocks ∧
        (live s.directory = [] ∨ ∀ e ∈ s.directory.head?, e.deleted = false))
  | _ => True

instance (entries : List BMFSEntry) (b n : ℕ) : Decidable (Clear entries b n) :=
  inferInstanceAs (Decidable (Extents.Clear _ _ entries b n))

instance (s : Bmfs) (blocks : ℕ) : Decidable (Room s blocks) :=
  decidable_of_iff (∃ b ∈ List.range (s.limit+1), 1 ≤ b ∧ b+blocks ≤ s.limit ∧
    Clear (live s.directory) b blocks)
    ⟨fun ⟨b,_,h⟩ => ⟨b,h⟩,fun ⟨b,h⟩ => ⟨b,List.mem_range.mpr (by omega),h⟩⟩

instance (s : Bmfs) : ∀ c, Decidable (Sound s c)
  | .create _ _ => inferInstanceAs (Decidable (_ ∨ _ ∨ _ ∨ ite _ _ _))
  | .format | .read _ | .write _ _ | .delete _ => isTrue trivial

structure Ok (s : Bmfs) : Prop where
  length : s.directory.length = 64
  size : 4 ≤ s.disksize ∧ s.disksize < 2^32
  inside : ∀ e ∈ used s.directory, 1 ≤ e.startingBlock ∧ 0 < e.reservedBlocks ∧ e.behind ≤ s.limit
  apart : (live s.directory).Pairwise (Extents.Apart BMFSEntry.startingBlock BMFSEntry.behind)
  names : ((live s.directory).map BMFSEntry.fileName).Nodup
  fits : ∀ e ∈ live s.directory, e.fileSize ≤ e.reservedBlocks*blockSize

variable {sort : List BMFSEntry → List BMFSEntry} {s s' : Bmfs} {as dels l pre post : List BMFSEntry}
  {numBlocks n p b slot : ℕ} {a d e : BMFSEntry} {name contents : List UInt8} {answer : BmfsAnswer}

/-! ### The search for an area -/

theorem minus_eq {x y : ℕ} (h : y ≤ x) (hx : x < 2^64) : minus x y = x-y := by
  rw [minus]
  omega

theorem searchLoop_nil (hl : numBlocks < 2^31) (h2 : 2 ≤ numBlocks) (hp : p ≤ numBlocks-1) :
    searchLoop numBlocks n [] p = if p+n ≤ numBlocks-1 then p else 0 := by
  rw [searchLoop,minus_eq (x := numBlocks) (by omega) (by omega),minus_eq hp (by omega)]
  split <;> split <;> omega

theorem searchLoop_deleted (hl : numBlocks < 2^31) (h2 : 2 ≤ numBlocks) (hp : p ≤ numBlocks-1)
    (hd : ∀ d ∈ dels, d.deleted = true ∧ d.behind ≤ numBlocks-1) :
    searchLoop numBlocks n dels p =
      ((p::dels.map BMFSEntry.behind).find? (fun x => decide (x+n ≤ numBlocks-1))).getD 0 := by
  induction dels generalizing p with
  | nil =>
    rw [searchLoop_nil hl h2 hp]
    by_cases h : p+n ≤ numBlocks-1 <;> simp [h]
  | cons d ds ih =>
    obtain ⟨hdel,hb⟩ := hd d List.mem_cons_self
    have hmod : (d.startingBlock+d.reservedBlocks)%2^64 = d.behind :=
      Nat.mod_eq_of_lt (by rw [BMFSEntry.behind] at hb; omega)
    rw [searchLoop]
    simp only [hdel,if_true,hmod]
    rw [minus_eq (x := numBlocks) (by omega) (by omega),minus_eq hp (by omega),
      ih hb (fun x hx => hd x (List.mem_cons_of_mem _ hx))]
    by_cases h : p+n ≤ numBlocks-1
    · rw [if_pos (by omega)]
      simp [h]
    · rw [if_neg (by omega)]
      simp [h]

/-- First the gaps between the files, then what lies behind a deleted entry. -/
theorem searchLoop_eq (hl : numBlocks < 2^31) (h2 : 2 ≤ numBlocks) (hp : p ≤ numBlocks-1)
    (hline : Extents.Line BMFSEntry.startingBlock BMFSEntry.behind p as)
    (ha : ∀ a ∈ as, a.deleted = false ∧ a.behind ≤ numBlocks-1)
    (hd : ∀ d ∈ dels, d.deleted = true ∧ d.behind ≤ numBlocks-1) :
    searchLoop numBlocks n (as++dels) p =
      ((Extents.search BMFSEntry.startingBlock BMFSEntry.behind n (numBlocks-1) as p).or
        ((dels.map BMFSEntry.behind).find? (fun x => decide (x+n ≤ numBlocks-1)))).getD 0 := by
  induction as generalizing p with
  | nil =>
    rw [List.nil_append,searchLoop_deleted hl h2 hp hd,Extents.search]
    by_cases h : p+n ≤ numBlocks-1 <;> simp [h]
  | cons a as ih =>
    obtain ⟨hpa,-,hrest⟩ := hline
    obtain ⟨hdel,hb⟩ := ha a List.mem_cons_self
    have hmod : (a.startingBlock+a.reservedBlocks)%2^64 = a.behind :=
      Nat.mod_eq_of_lt (by rw [BMFSEntry.behind] at hb; omega)
    have hstart : a.startingBlock ≤ numBlocks-1 := by
      rw [BMFSEntry.behind] at hb
      omega
    rw [List.cons_append,searchLoop,Extents.search]
    simp only [hdel,Bool.false_eq_true,if_false,hmod]
    rw [minus_eq hpa (by omega),ih hb hrest (fun x hx => ha x (List.mem_cons_of_mem _ hx))]
    by_cases h : p+n ≤ a.startingBlock
    · rw [if_pos (by omega),if_pos h]
      rfl
    · rw [if_neg (by omega),if_neg h]

theorem sorted_split (h : l.Pairwise (fun a b => startingBlockCmp a b ≤ 0 ∨
    (a.deleted = true ∧ b.deleted = true))) :
    l = l.filter (fun e => !e.deleted)++l.filter (fun e => e.deleted) := by
  induction l with
  | nil => rfl
  | cons a l ih =>
    obtain ⟨ha,hl⟩ := List.pairwise_cons.mp h
    cases hd : a.deleted with
    | false =>
      rw [List.filter_cons_of_pos (by simp [hd]),List.filter_cons_of_neg (by simp [hd]),
        List.cons_append]
      exact congrArg _ (ih hl)
    | true =>
      have hall : ∀ b ∈ l, b.deleted = true := by
        intro b hb
        rcases ha b hb with hc | hc
        · rw [startingBlockCmp,if_pos hd] at hc
          omega
        · exact hc.2
      have hnone : l.filter (fun e => !e.deleted) = [] :=
        List.filter_eq_nil_iff.mpr (fun b hb => by simp [hall b hb])
      rw [List.filter_cons_of_neg (by simp [hd]),List.filter_cons_of_pos (by simp [hd]),hnone,
        List.filter_eq_self.mpr hall]
      rfl

theorem startingBlockCmp_le (ha : a.deleted = false) (hb : d.deleted = false)
    (ha' : a.startingBlock < 2^31) (hb' : d.startingBlock < 2^31) (h : startingBlockCmp a d ≤ 0) :
    a.startingBlock ≤ d.startingBlock := by
  rw [startingBlockCmp,ha,hb,if_neg Bool.false_ne_true,if_neg Bool.false_ne_true,
    WrappedInts.Fits.wrap_eq ⟨by omega,by omega⟩] at h
  omega

theorem Ok.limit_eq (h : Ok s) : s.disksize/2 < 2^31 ∧ 2 ≤ s.disksize/2 ∧ 1 ≤ s.limit ∧
    s.limit = s.disksize/2-1 := by
  obtain ⟨hlo,hhi⟩ := h.size
  rw [limit]
  omega

theorem Ok.start_lt (h : Ok s) (he : e ∈ used s.directory) : e.startingBlock < 2^31 := by
  obtain ⟨-,hpos,hle⟩ := h.inside e he
  obtain ⟨hlt,-,-,hlim⟩ := h.limit_eq
  rw [BMFSEntry.behind] at hle
  omega

/-- Where the entries looked at are those in front of the end, the lowest area between the
files is found. Without one the deleted entries decide. -/
theorem Ok.search (h : Ok s) (hsort : Sorts sort) (hn : 0 < n) {area : ℕ}
    (harea : searchLoop (s.disksize/2) n (sort (used s.directory)) 1 = area) :
    Extents.lowest FileStore.lo FileStore.hi n s.limit 1 s.files = some area ∨
      (Extents.lowest FileStore.lo FileStore.hi n s.limit 1 s.files = none ∧
        ((area = 0 ∧ ∀ d ∈ used s.directory, d.deleted = true → s.limit < d.behind+n) ∨
          ∃ d ∈ used s.directory, d.deleted = true ∧ area = d.behind ∧ area+n ≤ s.limit)) := by
  obtain ⟨hlt,h2,hlim,hl⟩ := h.limit_eq
  obtain ⟨hperm,hsorted⟩ := hsort (used s.directory) (fun e he => h.start_lt he)
  have hsplit := sorted_split hsorted
  have hlive : ((sort (used s.directory)).filter (fun e => !e.deleted)).Perm (live s.directory) :=
    hperm.filter _
  have hmem : ∀ {a}, a ∈ (sort (used s.directory)).filter (fun e => !e.deleted) →
      a ∈ used s.directory ∧ a.deleted = false := fun ha => mem_live.mp (hlive.mem_iff.mp ha)
  have hdel : ∀ {d}, d ∈ (sort (used s.directory)).filter (fun e => e.deleted) ↔
      d ∈ used s.directory ∧ d.deleted = true := by
    intro d
    rw [List.mem_filter,hperm.mem_iff]
  have hline : Extents.Line BMFSEntry.startingBlock BMFSEntry.behind 1
      ((sort (used s.directory)).filter (fun e => !e.deleted)) := by
    refine Extents.line_of_sorted ?_ ?_ (fun a ha => ?_) (fun a ha => (h.inside a (hmem ha).1).1)
    · refine (hsorted.filter _).imp_of_mem (fun {a b} ha hb hc => ?_)
      obtain ⟨hau,hal⟩ := hmem ha
      obtain ⟨hbu,hbl⟩ := hmem hb
      rcases hc with hc | hc
      · exact startingBlockCmp_le hal hbl (h.start_lt hau) (h.start_lt hbu) hc
      · rw [hal] at hc
        cases hc.1
    · exact hlive.symm.pairwise h.apart (fun hx => hx.symm)
    · have := (h.inside a (hmem ha).1).2.1
      rw [BMFSEntry.behind]
      omega
  have hlowest : Extents.lowest FileStore.lo FileStore.hi n s.limit 1 s.files =
      Extents.search BMFSEntry.startingBlock BMFSEntry.behind n (s.disksize/2-1)
        ((sort (used s.directory)).filter (fun e => !e.deleted)) 1 := by
    rw [Extents.search_eq hline hn (fun a ha => ?_),files,Extents.lowest_map,← hl]
    · exact Extents.lowest_congr (fun a => hlive.symm.mem_iff)
    · have := (h.inside a (hmem ha).1).2.2
      rw [BMFSEntry.behind] at this
      omega
  rw [hsplit,searchLoop_eq hlt h2 (by omega) hline
    (fun a ha => ⟨(hmem ha).2,hl ▸ (h.inside a (hmem ha).1).2.2⟩)
    (fun d hd => ⟨(hdel.mp hd).2,hl ▸ (h.inside d (hdel.mp hd).1).2.2⟩),← hlowest,← hl] at harea
  cases hlow : Extents.lowest FileStore.lo FileStore.hi n s.limit 1 s.files with
  | some c =>
    rw [hlow] at harea
    exact Or.inl (congrArg some harea)
  | none =>
    rw [hlow,Option.none_or] at harea
    refine Or.inr ⟨rfl,?_⟩
    cases hf : (((sort (used s.directory)).filter (fun e => e.deleted)).map
        BMFSEntry.behind).find? (fun x => decide (x+n ≤ s.limit)) with
    | none =>
      rw [hf] at harea
      refine Or.inl ⟨harea.symm,fun d hd hdd => ?_⟩
      have hno := List.find?_eq_none.mp hf d.behind
        (List.mem_map.mpr ⟨d,hdel.mpr ⟨hd,hdd⟩,rfl⟩)
      simpa using hno
    | some x =>
      rw [hf] at harea
      obtain ⟨d,hd,hx⟩ := List.mem_map.mp (List.mem_of_find?_eq_some hf)
      obtain ⟨hdu,hdd⟩ := hdel.mp hd
      obtain rfl : x = area := harea
      exact Or.inr ⟨d,hdu,hdd,hx.symm,by simpa using List.find?_some hf⟩

/-! ### Files that are found -/

theorem findfile_some (h : s.findfile name = some (slot,e)) : ∃ pre post,
    At s.directory pre post slot e ∧ e.ends = false ∧ e.deleted = false ∧ e.fileName = name := by
  obtain ⟨pre,post,hat,-,hrest⟩ := findLoop_some h
  exact ⟨pre,post,hat,hrest⟩

/-- The files around an entry. -/
theorem At.live_eq (h : At l pre post slot e) (he : e.ends = false) (hd : e.deleted = false) :
    live l = pre.filter (fun x => !x.deleted)++e::live post := by
  rw [h.split,live_append h.before,live_cons he hd]

theorem At.live_deleted (h : At l pre post slot e) (he : e.ends = false) (hd : e.deleted = true) :
    live l = pre.filter (fun x => !x.deleted)++live post := by
  rw [h.split,live_append h.before,Bmfs.live_deleted he hd]

theorem At.used_eq (h : At l pre post slot e) (he : e.ends = false) :
    used l = pre++e::used post := by
  rw [h.split,used_append h.before,used_cons he]

theorem names_files : s.files.map BmfsFile.name = (live s.directory).map BMFSEntry.fileName := by
  rw [files,List.map_map]
  rfl

theorem Ok.names_files (h : Ok s) : (s.files.map BmfsFile.name).Nodup := by
  rw [Bmfs.names_files]
  exact h.names

theorem Ok.find_some (h : Ok s) (hf : s.findfile name = some (slot,e)) :
    FileStore.find s.files name = some (fileOf s.disk e) := by
  obtain ⟨pre,post,hat,he,hd,hname⟩ := findfile_some hf
  refine (FileStore.find_eq_some h.names_files).mpr ⟨List.mem_map.mpr ⟨e,?_,rfl⟩,hname⟩
  rw [hat.live_eq he hd]
  exact List.mem_append_right _ List.mem_cons_self

theorem find_none (hf : s.findfile name = none) : FileStore.find s.files name = none := by
  refine List.find?_eq_none.mpr (fun f hf' => ?_)
  obtain ⟨e,he,rfl⟩ := List.mem_map.mp hf'
  have hne : (fileOf s.disk e).name ≠ name := findLoop_none hf e he
  simpa using hne

def area (e : BMFSEntry) : ℕ × ℕ := (e.startingBlock,e.reservedBlocks)

theorem Ok.inside_of_areas (h : Ok s) (hl : l.map area = (used s.directory).map area) :
    ∀ e ∈ l, 1 ≤ e.startingBlock ∧ 0 < e.reservedBlocks ∧ e.behind ≤ s.limit := by
  intro e he
  have hmem : area e ∈ (used s.directory).map area := hl ▸ List.mem_map_of_mem he
  obtain ⟨x,hx,hxe⟩ := List.mem_map.mp hmem
  obtain ⟨hstart,hres⟩ := Prod.mk.inj hxe
  have hin := h.inside x hx
  rwa [BMFSEntry.behind,hstart,hres] at hin

theorem Ok.apart_of_areas (h : Ok s) (hl : l.map area = (live s.directory).map area) :
    l.Pairwise (Extents.Apart BMFSEntry.startingBlock BMFSEntry.behind) := by
  have hmap : ∀ xs : List BMFSEntry,
      xs.Pairwise (Extents.Apart BMFSEntry.startingBlock BMFSEntry.behind) ↔
        (xs.map area).Pairwise (Extents.Apart (fun x => x.1) (fun x => x.1+x.2)) := by
    intro xs
    rw [List.pairwise_map]
    rfl
  rw [hmap,hl,← hmap]
  exact h.apart

/-- The other entries have other names, and their blocks lie elsewhere. -/
theorem Ok.others (h : Ok s) (hat : At s.directory pre post slot e) (he : e.ends = false)
    (hd : e.deleted = false) {x : BMFSEntry}
    (hx : x ∈ pre.filter (fun x => !x.deleted) ∨ x ∈ live post) : x.fileName ≠ e.fileName ∧
      Extents.Apart BMFSEntry.startingBlock BMFSEntry.behind e x ∧ x ∈ live s.directory := by
  have hapart := h.apart
  have hnames := h.names
  rw [hat.live_eq he hd] at hapart hnames ⊢
  have hperm : (pre.filter (fun x => !x.deleted)++e::live post).Perm
      (e::(pre.filter (fun x => !x.deleted)++live post)) := List.perm_middle
  have hx' : x ∈ pre.filter (fun x => !x.deleted)++live post := List.mem_append.mpr hx
  refine ⟨fun heq => ?_,?_,hperm.mem_iff.mpr (List.mem_cons_of_mem _ hx')⟩
  · have hnodup := (hperm.map BMFSEntry.fileName).nodup hnames
    rw [List.map_cons,List.nodup_cons] at hnodup
    exact hnodup.1 (heq ▸ List.mem_map.mpr ⟨x,hx',rfl⟩)
  · exact (List.pairwise_cons.mp (hperm.pairwise hapart (fun hxy => hxy.symm))).1 x hx'

theorem write_ok (h : Ok s) (hs : s.write name contents = (answer,s')) : Ok s' ∧
    FileStore.write s.files name contents = (answer,s'.files) := by
  rw [write] at hs
  rw [FileStore.write]
  cases hf : s.findfile name with
  | none =>
    rw [hf] at hs
    cases hs
    rw [find_none hf]
    exact ⟨h,rfl⟩
  | some x =>
    obtain ⟨slot,e⟩ := x
    obtain ⟨pre,post,hat,he,hd,hname⟩ := findfile_some hf
    have hmem : e ∈ live s.directory := by
      rw [hat.live_eq he hd]
      exact List.mem_append_right _ List.mem_cons_self
    have hroom : e.reservedBlocks*blockSize%2^64 = e.reservedBlocks*blockSize := by
      have hle := (h.inside e (mem_live.mp hmem).1).2.2
      obtain ⟨hlt,-,-,hlim⟩ := h.limit_eq
      rw [BMFSEntry.behind] at hle
      refine Nat.mod_eq_of_lt ?_
      rw [blockSize]
      omega
    rw [hf] at hs
    simp only [hroom] at hs
    rw [h.find_some hf]
    show Ok s' ∧ (if e.reservedBlocks*blockSize < contents.length then _ else _) = _
    split at hs
    · rename_i hfull
      cases hs
      exact ⟨h,if_pos hfull⟩
    · rename_i hfit
      cases hs
      rw [if_neg hfit]
      have hat' := hat.set { e with fileSize := contents.length }
      have hlive := hat'.live_eq he hd
      have hsame : ∀ x, x ∈ pre.filter (fun x => !x.deleted) ∨ x ∈ live post →
          contentsOf (place s.disk (e.startingBlock*blockSize) contents) x = contentsOf s.disk x := by
        intro x hx
        obtain ⟨-,hapart,hxl⟩ := h.others hat he hd hx
        refine contentsOf_congr (fun i hi => place_outside (fun hw => ?_))
        have hfits := h.fits x hxl
        obtain ⟨hlo,hhi⟩ := hw
        unfold Extents.Apart BMFSEntry.behind at hapart
        simp only [blockSize] at hlo hhi hfits hfit
        rcases hapart with hle | hle <;> omega
      have hnew : contentsOf (place s.disk (e.startingBlock*blockSize) contents)
          { e with fileSize := contents.length } = contents := by
        refine List.ext_getElem (by simp [contentsOf]) (fun i hi hi' => ?_)
        simp only [contentsOf,List.getElem_map,List.getElem_range]
        exact placed_place i _ (List.getElem?_eq_getElem hi')
      refine ⟨⟨?_,h.size,?_,?_,?_,?_⟩,Prod.ext rfl ?_⟩
      · rw [List.length_set]
        exact h.length
      · refine h.inside_of_areas ?_
        rw [hat'.used_eq he,hat.used_eq he,List.map_append,List.map_append]
        rfl
      · refine h.apart_of_areas ?_
        rw [hlive,hat.live_eq he hd,List.map_append,List.map_append]
        rfl
      · show ((live (s.directory.set slot _)).map BMFSEntry.fileName).Nodup
        have hnames := h.names
        rw [hat.live_eq he hd,List.map_append] at hnames
        rw [hlive,List.map_append]
        exact hnames
      · intro x hx
        have hfits := h.fits
        rw [hat.live_eq he hd] at hfits
        rw [hlive] at hx
        rcases List.mem_append.mp hx with hx | hx
        · exact hfits x (List.mem_append_left _ hx)
        · rcases List.mem_cons.mp hx with rfl | hx
          · exact Nat.le_of_not_lt hfit
          · exact hfits x (List.mem_append_right _ (List.mem_cons_of_mem _ hx))
      · have hset : ∀ x, x ∈ pre.filter (fun x => !x.deleted) ∨ x ∈ live post →
            (if (fileOf s.disk x).name = name then
              { fileOf s.disk x with contents := contents } else fileOf s.disk x) =
              fileOf (place s.disk (e.startingBlock*blockSize) contents) x := by
          intro x hx
          have hne : (fileOf s.disk x).name ≠ name := hname ▸ (h.others hat he hd hx).1
          rw [if_neg hne,fileOf,fileOf,hsame x hx]
        simp only [files]
        rw [hlive,hat.live_eq he hd,List.map_append,List.map_append,List.map_cons,List.map_cons,
          List.map_append,List.map_cons,List.map_map,List.map_map]
        refine congrArg₂ _ (List.map_congr_left (fun x hx => hset x (Or.inl hx))) (congrArg₂ _ ?_
          (List.map_congr_left (fun x hx => hset x (Or.inr hx))))
        have hname' : (fileOf s.disk e).name = name := hname
        rw [if_pos hname',fileOf,fileOf,hnew]

theorem delete_ok (h : Ok s) (hs : s.delete name = (answer,s')) : Ok s' ∧
    FileStore.delete s.files name = (answer,s'.files) := by
  rw [delete] at hs
  rw [FileStore.delete]
  cases hf : s.findfile name with
  | none =>
    rw [hf] at hs
    cases hs
    rw [find_none hf]
    exact ⟨h,rfl⟩
  | some x =>
    obtain ⟨slot,e⟩ := x
    obtain ⟨pre,post,hat,he,hd,hname⟩ := findfile_some hf
    rw [hf] at hs
    cases hs
    rw [h.find_some hf,if_pos Option.isSome_some]
    have hat' := hat.set { e with fileName := 1::e.fileName.tail }
    have he' : BMFSEntry.ends { e with fileName := 1::e.fileName.tail } = false := rfl
    have hlive : live (s.directory.set slot { e with fileName := 1::e.fileName.tail }) =
        pre.filter (fun x => !x.deleted)++live post := hat'.live_deleted he' rfl
    have hsub : (live (s.directory.set slot { e with fileName := 1::e.fileName.tail })).Sublist
        (live s.directory) := by
      rw [hlive,hat.live_eq he hd]
      exact (List.sublist_cons_self e _).append_left _
    refine ⟨⟨?_,h.size,?_,h.apart.sublist hsub,h.names.sublist (hsub.map _),
      fun x hx => h.fits x (hsub.subset hx)⟩,Prod.ext rfl ?_⟩
    · rw [List.length_set]
      exact h.length
    · refine h.inside_of_areas ?_
      rw [hat'.used_eq he',hat.used_eq he,List.map_append,List.map_append]
      rfl
    · have hname' : (fileOf s.disk e).name = name := hname
      have hkeep : ∀ x, x ∈ pre.filter (fun x => !x.deleted) ∨ x ∈ live post →
          decide ((fileOf s.disk x).name ≠ name) = true :=
        fun x hx => decide_eq_true (hname ▸ (h.others hat he hd hx).1)
      simp only [files]
      rw [hlive,hat.live_eq he hd,List.map_append,List.map_append,List.filter_append,List.map_cons,
        List.filter_cons_of_neg (by simp [hname'])]
      refine congrArg₂ _ (List.filter_eq_self.mpr ?_) (List.filter_eq_self.mpr ?_)
      · exact List.forall_mem_map.mpr (fun x hx => hkeep x (Or.inl hx))
      · exact List.forall_mem_map.mpr (fun x hx => hkeep x (Or.inr hx))

theorem read_eq (h : Ok s) : s.read name = FileStore.read s.files name := by
  rw [read,FileStore.read]
  cases hf : s.findfile name with
  | none =>
    rw [find_none hf]
  | some x =>
    obtain ⟨slot,e⟩ := x
    rw [h.find_some hf]
    rfl

theorem ok_of_empty (hlen : s.directory.length = 64) (hsize : 4 ≤ s.disksize ∧ s.disksize < 2^32)
    (hu : used s.directory = []) : Ok s ∧ s.files = [] := by
  have hl : live s.directory = [] := by
    rw [live,hu]
    rfl
  refine ⟨⟨hlen,hsize,?_,?_,?_,?_⟩,?_⟩
  · rw [hu]
    simp
  · rw [hl]
    exact List.Pairwise.nil
  · rw [hl]
    exact List.nodup_nil
  · rw [hl]
    simp
  · rw [files,hl,List.map_nil]

/-! ### Creation -/

structure Fresh (name : List UInt8) (s : Bmfs) (e : BMFSEntry) : Prop where
  ends : e.ends = false
  deleted : e.deleted = false
  fileName : e.fileName = name
  fileSize : e.fileSize = 0
  found : s.findfile name = none

structure Added (s : Bmfs) (e : BMFSEntry) (directory : List BMFSEntry) : Prop where
  length : directory.length = s.directory.length
  live : (live directory).Perm (e::Bmfs.live s.directory)
  used : ∀ x ∈ used directory, x = e ∨ x ∈ Bmfs.used s.directory

theorem fileOf_fresh (h : Fresh name s e) :
    fileOf s.disk e = ⟨name,e.startingBlock,e.reservedBlocks,[]⟩ := by
  rw [fileOf,contentsOf,h.fileName,h.fileSize]
  rfl

theorem Added.files {directory : List BMFSEntry} (h : Added s e directory) (hf : Fresh name s e) :
    (files { s with directory := directory }).Perm
      (⟨name,e.startingBlock,e.reservedBlocks,[]⟩::s.files) := by
  rw [← fileOf_fresh hf]
  exact h.live.map (fileOf s.disk)

theorem Added.ok {directory : List BMFSEntry} (h : Added s e directory) (hf : Fresh name s e)
    (hok : Ok s) (hstart : 1 ≤ e.startingBlock) (hpos : 0 < e.reservedBlocks)
    (hlim : e.behind ≤ s.limit) (hclear : Clear (Bmfs.live s.directory) e.startingBlock
      e.reservedBlocks) : Ok { s with directory := directory } := by
  refine ⟨h.length.trans hok.length,hok.size,fun x hx => ?_,?_,?_,fun x hx => ?_⟩
  · rcases h.used x hx with rfl | hx
    · exact ⟨hstart,hpos,hlim⟩
    · exact hok.inside x hx
  · exact h.live.symm.pairwise (List.pairwise_cons.mpr ⟨hclear.apart rfl rfl,hok.apart⟩)
      (fun hxy => hxy.symm)
  · refine (h.live.symm.map _).nodup (List.nodup_cons.mpr ⟨fun hmem => ?_,hok.names⟩)
    obtain ⟨x,hx,hname⟩ := List.mem_map.mp hmem
    exact findLoop_none hf.found x hx (hname.trans hf.fileName)
  · rcases List.mem_cons.mp (h.live.mem_iff.mp hx) with rfl | hx
    · rw [hf.fileSize]
      exact Nat.zero_le _
    · exact hok.fits x hx

/-- In the place of a deleted entry. -/
theorem added_instead (hat : At s.directory pre post slot d) (hd : d.ends = false)
    (hdd : d.deleted = true) (he : e.ends = false) (hed : e.deleted = false) :
    Added s e (s.directory.set slot e) := by
  have hat' := hat.set e
  refine ⟨List.length_set,?_,fun x hx => ?_⟩
  · rw [hat'.live_eq he hed,hat.live_deleted hd hdd]
    exact List.perm_middle
  · rw [hat'.used_eq he] at hx
    rw [hat.used_eq hd]
    rcases List.mem_append.mp hx with hx | hx
    · exact Or.inr (List.mem_append_left _ hx)
    · rcases List.mem_cons.mp hx with rfl | hx
      · exact Or.inl rfl
      · exact Or.inr (List.mem_append_right _ (List.mem_cons_of_mem _ hx))

/-- Behind an entry that is taken for the end stands the end. -/
theorem addEntry_end (hat : At s.directory pre post slot d) (hlen : s.directory.length = 64)
    (e : BMFSEntry) : ∃ post', s.addEntry slot slot e = pre++e::post' ∧
      post'.length = post.length ∧ used post' = [] := by
  have hslot := hat.slot
  have hset : s.directory.set slot e = pre++e::post := (hat.set e).split
  rw [hat.split,List.length_append,List.length_cons] at hlen
  rw [addEntry,hset]
  split
  · cases post with
    | nil =>
      rw [List.length_nil] at hlen
      omega
    | cons y ys =>
      refine ⟨{ y with fileName := [] }::ys,?_,rfl,used_ended rfl⟩
      rw [hslot]
      exact List.modifyTailIdx_add _ 1 pre (e::y::ys)
  · rename_i hlast
    cases post with
    | nil => exact ⟨[],rfl,rfl,rfl⟩
    | cons y ys =>
      rw [List.length_cons] at hlen
      exact absurd ⟨rfl,by omega⟩ hlast

/-- In the place of the end, which moves on. -/
theorem added_behind (hat : At s.directory pre post slot d) (hd : d.ends = true)
    (hlen : s.directory.length = 64) (he : e.ends = false) (hed : e.deleted = false) :
    Added s e (s.addEntry slot slot e) := by
  have hpre := hat.before
  obtain ⟨post',hdir,hlen',hnone⟩ := addEntry_end hat hlen e
  have hused : used (s.addEntry slot slot e) = pre++[e] := by
    rw [hdir,used_append hpre,used_cons he,hnone]
  have hold : used s.directory = pre := by
    rw [hat.split,used_append hpre,used_ended hd,List.append_nil]
  refine ⟨?_,?_,fun x hx => ?_⟩
  · rw [hdir,hat.split,List.length_append,List.length_append,List.length_cons,List.length_cons,hlen']
  · rw [live,hused,live,hold,List.filter_append,List.filter_cons_of_pos (by simp [hed])]
    exact List.perm_append_singleton _ _
  · rw [hused] at hx
    rw [hold]
    rcases List.mem_append.mp hx with hx | hx
    · exact Or.inr hx
    · exact Or.inl (List.mem_singleton.mp hx)

/-- What the two counters are of a directory with an end marker. -/
theorem countLoop_ended (hat : At s.directory pre post slot d) (hd : d.ends = true) :
    ∃ free, countLoop s.directory 0 none = (slot,some free) ∧
      ((free = slot ∧ ∀ x ∈ pre, x.deleted = false) ∨ ∃ a b x, At s.directory a b free x ∧
        x.ends = false ∧ x.deleted = true ∧ free < slot) := by
  have hslot := hat.slot
  by_cases hdel : ∃ x ∈ pre, x.deleted = true
  · obtain ⟨x,hx,a,b,hpre,ha⟩ := SlotChains.exists_first hdel
    have hends : x.ends = false := hat.before x (hpre ▸ List.mem_append_right _ List.mem_cons_self)
    have ha' : ∀ y ∈ a, y.ends = false :=
      fun y hy => hat.before y (hpre ▸ List.mem_append_left _ hy)
    have hb : ∀ y ∈ b, y.ends = false :=
      fun y hy => hat.before y (hpre ▸ List.mem_append_right _ (List.mem_cons_of_mem _ hy))
    have hat' : At s.directory a (b++d::post) a.length x :=
      ⟨by rw [hat.split,hpre,List.append_assoc,List.cons_append],rfl,ha'⟩
    have hlen : pre.length = a.length+(b.length+1) := by
      rw [hpre,List.length_append,List.length_cons]
    refine ⟨a.length,?_,Or.inr ⟨a,_,x,hat',hends,hx,by omega⟩⟩
    rw [countLoop_deleted hat' (fun y hy => by simpa using ha y hy) hends hx,countLoop_marked hb,
      countLoop,if_pos hd,Option.some_or,hslot,hlen]
    refine Prod.ext ?_ rfl
    show a.length+1+b.length = a.length+(b.length+1)
    omega
  · have hno : ∀ x ∈ pre, x.deleted = false := by
      intro x hx
      by_contra hne
      exact hdel ⟨x,hx,by simpa using hne⟩
    refine ⟨slot,?_,Or.inl ⟨rfl,hno⟩⟩
    rw [hat.split,countLoop_skip hat.before hno,countLoop,if_pos hd,Nat.zero_add,hslot]
    rfl

/-- And of one without. -/
theorem countLoop_full (h : ∀ x ∈ s.directory, x.ends = false) :
    ((∀ x ∈ s.directory, x.deleted = false) ∧ countLoop s.directory 0 none = (0,none)) ∨
      ∃ a b free x, At s.directory a b free x ∧ x.deleted = true ∧ (∀ y ∈ a, y.deleted = false) ∧
        countLoop s.directory 0 none = (0,some free) := by
  by_cases hdel : ∃ x ∈ s.directory, x.deleted = true
  · obtain ⟨x,hx,a,b,hdir,ha⟩ := SlotChains.exists_first hdel
    have hends : ∀ y, y ∈ a ∨ y = x ∨ y ∈ b → y.ends = false := by
      intro y hy
      refine h y ?_
      rw [hdir]
      simpa using hy
    have hat : At s.directory a b a.length x := ⟨hdir,rfl,fun y hy => hends y (Or.inl hy)⟩
    have ha' : ∀ y ∈ a, y.deleted = false := fun y hy => by simpa using ha y hy
    refine Or.inr ⟨a,b,a.length,x,hat,hx,ha',?_⟩
    have hrest : countLoop (b++[]) (a.length+1) (some a.length) =
        countLoop [] (a.length+1+b.length) (some a.length) :=
      countLoop_marked (fun y hy => hends y (Or.inr (Or.inr hy)))
    rw [List.append_nil] at hrest
    rw [countLoop_deleted hat ha' (hends x (Or.inr (Or.inl rfl))) hx,hrest]
    rfl
  · have hno : ∀ x ∈ s.directory, x.deleted = false := by
      intro x hx
      by_contra hne
      exact hdel ⟨x,hx,by simpa using hne⟩
    have hskip : countLoop (s.directory++[]) 0 none = countLoop [] (0+s.directory.length) none :=
      countLoop_skip h hno
    rw [List.append_nil] at hskip
    exact Or.inl ⟨hno,hskip⟩

def newEntry (name : List UInt8) (start blocks : ℕ) : BMFSEntry := ⟨name,start,blocks,0⟩

theorem newEntry_fresh {name : EntryName} (hf : s.findfile name.bytes = none) (b n : ℕ) :
    Fresh name.bytes s (newEntry name.bytes b n) :=
  ⟨decide_eq_false name.notEnd,decide_eq_false name.notDeleted,rfl,rfl,hf⟩

theorem create_eq (hf : s.findfile name = none) (size : ℕ) : create sort s name size =
    match countLoop s.directory 0 none with
    | (_,none) => (.noEntries,s)
    | (used,some free) =>
      let start := searchLoop (s.disksize/2) ((size+1)/2) (sort (s.directory.take used)) 1
      if start = 0 then (.noArea,s)
      else (.complete,{ s with directory := s.addEntry used free (newEntry name start ((size+1)/2)) }) := by
  have hblocks : (if size%2 ≠ 0 then size+1 else size)/2 = (size+1)/2 := by
    split <;> omega
  rw [create]
  simp only [hf,hblocks]
  rfl

/-- With an end marker a free entry is there, and the entries in front of the end are looked
at. -/
theorem create_ended (sort : List BMFSEntry → List BMFSEntry) (h : Ok s) {name : EntryName}
    (hf : s.findfile name.bytes = none) (hend : ∃ e ∈ s.directory, e.ends = true) (size : ℕ) : ∃ area directory,
      searchLoop (s.disksize/2) ((size+1)/2) (sort (used s.directory)) 1 = area ∧
      Added s (newEntry name.bytes area ((size+1)/2)) directory ∧
      create sort s name.bytes size =
        (if area = 0 then (.noArea,s) else (.complete,{ s with directory := directory })) ∧
      s.files.length < 64 := by
  obtain ⟨d,hd,pre,post,hdir,hpre⟩ := SlotChains.exists_first hend
  have hat : At s.directory pre post pre.length d := ⟨hdir,rfl,fun x hx => by simpa using hpre x hx⟩
  have hused : used s.directory = pre := by
    rw [hdir,used_append hat.before,used_ended hd,List.append_nil]
  have htake : s.directory.take pre.length = used s.directory := by
    rw [hused,hdir,List.take_left]
  obtain ⟨free,hcount,hfree⟩ := countLoop_ended hat hd
  obtain ⟨area,harea⟩ : ∃ area,
      searchLoop (s.disksize/2) ((size+1)/2) (sort (used s.directory)) 1 = area := ⟨_,rfl⟩
  refine ⟨area,s.addEntry pre.length free (newEntry name.bytes area ((size+1)/2)),harea,?_,?_,?_⟩
  · have hnew := newEntry_fresh hf area ((size+1)/2)
    rcases hfree with ⟨rfl,-⟩ | ⟨a,b,x,hat',hx,hxd,hlt⟩
    · exact added_behind hat hd h.length hnew.ends hnew.deleted
    · rw [addEntry,if_neg (fun hc => absurd hc.1 hlt.ne)]
      exact added_instead hat' hx hxd hnew.ends hnew.deleted
  · rw [create_eq hf,hcount]
    simp only [htake,harea]
  · have hle := List.length_filter_le (fun e => !e.deleted) (used s.directory)
    have hlen := h.length
    rw [hdir,List.length_append,List.length_cons] at hlen
    rw [files,List.length_map,live]
    rw [hused] at hle ⊢
    omega

/-- Without one no entry is looked at, and the first one stands for the end. -/
theorem create_full (h : Ok s) (hsort : Sorts sort) {name : EntryName}
    (hf : s.findfile name.bytes = none) (hend : ∀ e ∈ s.directory, e.ends = false) (size : ℕ) :
    ((∀ e ∈ s.directory, e.deleted = false) ∧ create sort s name.bytes size = (.noEntries,s) ∧
        s.files.length = 64) ∨
      ∃ directory, create sort s name.bytes size = (if 1+(size+1)/2 ≤ s.limit then
          (.complete,{ s with directory := directory }) else (.noArea,s)) ∧ s.files.length < 64 ∧
        ((live s.directory = [] ∨ ∀ e ∈ s.directory.head?, e.deleted = false) →
          Added s (newEntry name.bytes 1 ((size+1)/2)) directory) ∧
        (¬ (live s.directory = [] ∨ ∀ e ∈ s.directory.head?, e.deleted = false) →
          live directory = [newEntry name.bytes 1 ((size+1)/2)]) := by
  obtain ⟨hlt,h2,hlim,hl⟩ := h.limit_eq
  have hused : used s.directory = s.directory := used_all hend
  rcases countLoop_full hend with ⟨hno,hcount⟩ | ⟨a,b,free,x,hat,hx,ha,hcount⟩
  · refine Or.inl ⟨hno,?_,?_⟩
    · rw [create_eq hf,hcount]
    · rw [files,List.length_map,live,hused,List.filter_eq_self.mpr (fun e he => by simp [hno e he]),
        h.length]
  · have hnew := newEntry_fresh hf 1 ((size+1)/2)
    have hends : x.ends = false := hend x (hat.split ▸ List.mem_append_right _ List.mem_cons_self)
    have hempty : sort (s.directory.take 0) = [] :=
      List.Perm.eq_nil (hsort _ (by simp)).1
    -- the end is marked anew behind the first entry
    have hrestart : free = 0 → live (s.addEntry 0 free (newEntry name.bytes 1 ((size+1)/2))) =
        [newEntry name.bytes 1 ((size+1)/2)] ∧
        used (s.addEntry 0 free (newEntry name.bytes 1 ((size+1)/2))) =
          [newEntry name.bytes 1 ((size+1)/2)] ∧
        (s.addEntry 0 free (newEntry name.bytes 1 ((size+1)/2))).length = s.directory.length := by
      rintro rfl
      have hnil : a = [] := List.length_eq_zero_iff.mp hat.slot.symm
      obtain ⟨post',hdir,hlen',hnone⟩ := addEntry_end hat h.length
        (newEntry name.bytes 1 ((size+1)/2))
      rw [hdir,hat.split,hnil,List.nil_append,List.nil_append,live_cons hnew.ends hnew.deleted,
        used_cons hnew.ends,live,hnone]
      exact ⟨rfl,rfl,congrArg (· + 1) hlen'⟩
    refine Or.inr ⟨s.addEntry 0 free (newEntry name.bytes 1 ((size+1)/2)),?_,?_,fun hc => ?_,
      fun hc => ?_⟩
    · rw [create_eq hf,hcount]
      simp only [hempty,searchLoop_nil hlt h2 (show 1 ≤ s.disksize/2-1 by omega),← hl]
      by_cases hfit : 1+(size+1)/2 ≤ s.limit
      · simp [hfit]
      · simp [hfit]
    · have hlen := h.length
      have hle := List.length_filter_le (fun e => !e.deleted) a
      have hle' := List.length_filter_le (fun e => !e.deleted) (used b)
      have hb : used b = b := used_all (fun y hy => hend y (hat.split ▸
        List.mem_append_right _ (List.mem_cons_of_mem _ hy)))
      rw [hat.split,List.length_append,List.length_cons] at hlen
      rw [files,List.length_map,hat.live_deleted hends hx,List.length_append,live]
      rw [hb] at hle' ⊢
      omega
    · by_cases hfree : free = 0
      · subst hfree
        obtain ⟨hlive,hused',hlength⟩ := hrestart rfl
        have hnone : live s.directory = [] := by
          refine hc.resolve_right (fun hhead => ?_)
          have hxd := hhead x (by rw [hat.split,List.length_eq_zero_iff.mp hat.slot.symm]; rfl)
          rw [hxd] at hx
          cases hx
        refine ⟨hlength,by rw [hlive,hnone],fun y hy => Or.inl ?_⟩
        rw [hused'] at hy
        exact List.mem_singleton.mp hy
      · rw [addEntry,if_neg (fun hc => hfree hc.1)]
        exact added_instead hat hends hx hnew.ends hnew.deleted
    · refine (hrestart ?_).1
      rw [hat.slot]
      cases a with
      | nil => rfl
      | cons y ys =>
        refine absurd (Or.inr (fun e he => ?_)) hc
        rw [hat.split] at he
        obtain rfl := Option.some.inj he
        exact ha y List.mem_cons_self

theorem clear_files : Extents.Clear FileStore.lo FileStore.hi s.files b n ↔
    Clear (live s.directory) b n := List.forall_mem_map

theorem lowest_spec (h : Extents.lowest FileStore.lo FileStore.hi n s.limit 1 s.files = some b) :
    1 ≤ b ∧ b+n ≤ s.limit ∧ Clear (live s.directory) b n := by
  obtain ⟨-,⟨hb,hl,hc⟩,-⟩ := Extents.lowest_some.mp h
  exact ⟨hb,hl,clear_files.mp hc⟩

theorem lowest_one (hl : 1+n ≤ s.limit) (hn : 0 < n) (hc : Clear (live s.directory) 1 n) :
    Extents.lowest FileStore.lo FileStore.hi n s.limit 1 s.files = some 1 :=
  Extents.lowest_some.mpr ⟨by omega,⟨le_rfl,hl,clear_files.mpr hc⟩,fun c hc' hx => by omega⟩

theorem store_create (hf : s.findfile name = none) (hlen : s.files.length < 64) :
    FileStore.create s.limit s.files name n =
      match Extents.lowest FileStore.lo FileStore.hi n s.limit 1 s.files with
      | none => (.noArea,s.files)
      | some b => (.complete,⟨name,b,n,[]⟩::s.files) := by
  rw [FileStore.create,find_none hf]
  exact (if_neg (by simp)).trans (if_neg (Nat.not_le_of_lt hlen))

theorem create_found {x : ℕ × BMFSEntry} (hf : s.findfile name = some x) (size : ℕ) :
    create sort s name size = (.alreadyExists,s) := by
  rw [create]
  simp only [hf]

/-- An area that is found is the one that the store takes. -/
theorem created_ok (h : Ok s) {name : EntryName} {directory : List BMFSEntry}
    (hf : s.findfile name.bytes = none) (hadd : Added s (newEntry name.bytes b n) directory)
    (hn : 0 < n) (hlow : Extents.lowest FileStore.lo FileStore.hi n s.limit 1 s.files = some b) :
    Ok { s with directory := directory } ∧
      (files { s with directory := directory }).Perm (⟨name.bytes,b,n,[]⟩::s.files) := by
  obtain ⟨hb,hl,hclear⟩ := lowest_spec hlow
  have hnew := newEntry_fresh hf b n
  exact ⟨hadd.ok hnew h hb hn hl hclear,hadd.files hnew⟩

theorem create_ok (h : Ok s) (hsort : Sorts sort) {name : EntryName} {size : ℕ} (h1 : 1 ≤ size)
    (hs : Sound s (.create name size)) (hc : create sort s name.bytes size = (answer,s')) :
    Ok s' ∧ (FileStore.create s.limit s.files name.bytes ((size+1)/2)).1 = answer ∧
      s'.files.Perm (FileStore.create s.limit s.files name.bytes ((size+1)/2)).2 := by
  have hn : 0 < (size+1)/2 := by omega
  cases hf : s.findfile name.bytes with
  | some x =>
    rw [create_found hf] at hc
    cases hc
    rw [FileStore.create,h.find_some hf,if_pos Option.isSome_some]
    exact ⟨h,rfl,List.Perm.refl _⟩
  | none =>
    have hs' := (hs.resolve_left (by omega)).resolve_left (by rw [hf]; simp)
    by_cases hend : ∃ e ∈ s.directory, e.ends = true
    · obtain ⟨area,directory,harea,hadd,hcreate,hlen⟩ := create_ended sort h hf hend size
      obtain ⟨e,hemem,heend⟩ := hend
      have hs'' := hs'.resolve_left (fun hall => by
        rw [(hall e hemem).1] at heend
        cases heend)
      rw [if_pos ⟨e,hemem,heend⟩] at hs''
      rw [hcreate] at hc
      rw [store_create hf hlen]
      rcases h.search hsort hn harea with hlow | ⟨hlow,⟨rfl,-⟩ | ⟨d,hd,hdd,rfl,hle⟩⟩
      · have hne : area ≠ 0 := by
          have := (lowest_spec hlow).1
          omega
        rw [if_neg hne] at hc
        cases hc
        rw [hlow]
        obtain ⟨hok,hperm⟩ := created_ok h hf hadd hn hlow
        exact ⟨hok,rfl,hperm⟩
      · rw [if_pos rfl] at hc
        cases hc
        rw [hlow]
        exact ⟨h,rfl,List.Perm.refl _⟩
      · -- behind a deleted entry, although no area between the files is large enough
        exfalso
        rcases hs'' with ⟨b,hb,hl,hclear⟩ | hnone
        · exact (Extents.lowest_none hn).mp hlow b hb hl (clear_files.mpr hclear)
        · have := hnone d hd hdd
          omega
    · have hall : ∀ e ∈ s.directory, e.ends = false := by
        intro e he
        by_contra hne
        exact hend ⟨e,he,by simpa using hne⟩
      rcases create_full h hsort hf hall size with ⟨-,hcreate,hlen⟩ | ⟨directory,hcreate,hlen,hadd,-⟩
      · rw [hcreate] at hc
        cases hc
        rw [FileStore.create,find_none hf,if_neg (by simp),if_pos hlen.ge]
        exact ⟨h,rfl,List.Perm.refl _⟩
      · have hnot : ¬ ∀ e ∈ s.directory, e.ends = false ∧ e.deleted = false := by
          intro hno
          have hused : used s.directory = s.directory := used_all hall
          rw [files,List.length_map,live,hused,List.filter_eq_self.mpr
            (fun e he => by simp [(hno e he).2]),h.length] at hlen
          omega
        have hs'' := hs'.resolve_left hnot
        rw [if_neg hend] at hs''
        rw [hcreate] at hc
        rw [store_create hf hlen]
        split at hc
        · rename_i hfit
          cases hc
          obtain ⟨hclear,hhead⟩ := hs''.resolve_left (by omega)
          have hlow := lowest_one hfit hn hclear
          rw [hlow]
          obtain ⟨hok,hperm⟩ := created_ok h hf (hadd hhead) hn hlow
          exact ⟨hok,rfl,hperm⟩
        · rename_i hfit
          cases hc
          rw [(Extents.lowest_none hn).mpr (fun b hb hl => by omega)]
          exact ⟨h,rfl,List.Perm.refl _⟩

/-- The store has no file of the name unless it has made it itself, at the lowest place. -/
theorem store_create_mem (hf : s.findfile name = none) (hlen : s.files.length < 64)
    (hmem : ⟨name,b,n,[]⟩ ∈ (FileStore.create s.limit s.files name n).2) :
    Extents.lowest FileStore.lo FileStore.hi n s.limit 1 s.files = some b := by
  have hold : ∀ c, (⟨name,c,n,[]⟩ : BmfsFile) ∉ s.files := by
    intro c hc
    have := List.find?_eq_none.mp (find_none hf) _ hc
    simp at this
  rw [store_create hf hlen] at hmem
  split at hmem
  · exact absurd hmem (hold b)
  · rename_i c hlow
    rcases List.mem_cons.mp hmem with heq | hmem
    · cases heq
      exact hlow
    · exact absurd hmem (hold b)

theorem create_lost (h : Ok s) (hsort : Sorts sort) {name : EntryName} {size : ℕ} (h1 : 1 ≤ size)
    (hs : ¬ Sound s (.create name size)) (hc : create sort s name.bytes size = (answer,s')) :
    ¬ s'.files.Perm (FileStore.create s.limit s.files name.bytes ((size+1)/2)).2 := by
  have hn : 0 < (size+1)/2 := by omega
  intro hperm
  have hs' := not_or.mp (not_or.mp hs).2
  have hf : s.findfile name.bytes = none := by
    rw [← Option.not_isSome_iff_eq_none]
    exact hs'.1
  have hs'' := not_or.mp hs'.2
  by_cases hend : ∃ e ∈ s.directory, e.ends = true
  · obtain ⟨area,directory,harea,hadd,hcreate,hlen⟩ := create_ended sort h hf hend size
    have hbad := hs''.2
    rw [if_pos hend] at hbad
    obtain ⟨hnone,hsome⟩ := not_or.mp hbad
    rw [hcreate] at hc
    rcases h.search hsort hn harea with hlow | ⟨hlow,⟨-,hno⟩ | ⟨d,hd,-,harea',-⟩⟩
    · obtain ⟨hb,hl,hclear⟩ := lowest_spec hlow
      exact hnone ⟨area,hb,hl,hclear⟩
    · exact hsome hno
    · have hne : area ≠ 0 := by
        have := (h.inside d hd).1
        rw [harea',BMFSEntry.behind]
        omega
      rw [if_neg hne] at hc
      cases hc
      have hmem := hperm.mem_iff.mp ((hadd.files (newEntry_fresh hf area _)).mem_iff.mpr
        List.mem_cons_self)
      rw [store_create_mem hf hlen hmem] at hlow
      cases hlow
  · have hall : ∀ e ∈ s.directory, e.ends = false := by
      intro e he
      by_contra hne
      exact hend ⟨e,he,by simpa using hne⟩
    have hbad := hs''.2
    rw [if_neg hend] at hbad
    obtain ⟨hfit,hbad⟩ := not_or.mp hbad
    rcases create_full h hsort hf hall size with ⟨hno,-,-⟩ | ⟨directory,hcreate,hlen,hadd,hlost⟩
    · exact hs''.1 (fun e he => ⟨hall e he,hno e he⟩)
    · rw [hcreate,if_pos (by omega)] at hc
      cases hc
      have hnew := newEntry_fresh hf 1 ((size+1)/2)
      by_cases hhead : live s.directory = [] ∨ ∀ e ∈ s.directory.head?, e.deleted = false
      · have hmem := hperm.mem_iff.mp (((hadd hhead).files hnew).mem_iff.mpr List.mem_cons_self)
        have hlow := store_create_mem hf hlen hmem
        exact hbad ⟨(lowest_spec hlow).2.2,hhead⟩
      · have hfiles : files { s with directory := directory } =
            [⟨name.bytes,1,(size+1)/2,[]⟩] := by
          rw [files,hlost hhead,List.map_singleton,fileOf_fresh hnew]
          rfl
        rw [hfiles] at hperm
        have hlow := store_create_mem hf hlen (hperm.mem_iff.mp List.mem_cons_self)
        rw [store_create hf hlen,hlow] at hperm
        have hone := hperm.length_eq
        rw [List.length_singleton,List.length_cons] at hone
        refine hhead (Or.inl ?_)
        rw [← List.length_eq_zero_iff]
        rw [files,List.length_map] at hone
        omega

/-! ### Runs -/

def pair (sort : List BMFSEntry → List BMFSEntry) (x : Bmfs × List BmfsFile) (c : BmfsCommand) :
    Option (Bmfs × List BmfsFile) :=
  (x.1.step sort c).map (fun y => (y.2,(FileStore.step x.1.limit x.2 c).2))

def Shows (x : Bmfs × List BmfsFile) : Prop := x.1.files.Perm x.2

def Alike (sort : List BMFSEntry → List BMFSEntry) (x : Bmfs × List BmfsFile) (c : BmfsCommand) :
    Prop := ∀ y, x.1.step sort c = some y → y.1 = (FileStore.step x.1.limit x.2 c).1

def formatted (disksize : ℕ) (disk : ℕ → UInt8) : Bmfs × List BmfsFile :=
  (⟨disksize,List.replicate 64 ⟨[],0,0,0⟩,disk⟩,[])

theorem step_ok (h : Ok s) (hsort : Sorts sort) {c : BmfsCommand} (hs : Sound s c)
    (hstep : step sort s c = some (answer,s')) : Ok s' ∧
      (FileStore.step s.limit s.files c).1 = answer ∧
      s'.files.Perm (FileStore.step s.limit s.files c).2 := by
  cases c with
  | format =>
    cases hstep
    obtain ⟨hok,hnil⟩ := ok_of_empty (s := s.format) rfl h.size (used_ended rfl)
    exact ⟨hok,rfl,hnil ▸ List.Perm.refl _⟩
  | create name maxsize =>
    obtain ⟨-,hstep⟩ := Option.ite_none_left_eq_some.mp hstep
    rw [FileStore.step]
    split at hstep
    · rename_i hinvalid
      cases hstep
      rw [if_pos hinvalid]
      exact ⟨h,rfl,List.Perm.refl _⟩
    · rename_i hvalid
      rw [if_neg hvalid]
      exact create_ok h hsort (by omega) hs (Option.some.inj hstep)
  | read name =>
    cases hstep
    exact ⟨h,(read_eq h).symm,List.Perm.refl _⟩
  | write name contents =>
    obtain ⟨-,hstep⟩ := Option.ite_none_left_eq_some.mp hstep
    obtain ⟨hok,heq⟩ := write_ok h (Option.some.inj hstep)
    rw [FileStore.step,heq]
    exact ⟨hok,rfl,List.Perm.refl _⟩
  | delete name =>
    obtain ⟨hok,heq⟩ := delete_ok h (Option.some.inj hstep)
    rw [FileStore.step,heq]
    exact ⟨hok,rfl,List.Perm.refl _⟩

theorem step_lost (h : Ok s) (hsort : Sorts sort) {c : BmfsCommand} (hs : ¬ Sound s c)
    (hstep : step sort s c = some (answer,s')) :
    ¬ s'.files.Perm (FileStore.step s.limit s.files c).2 := by
  cases c with
  | create name maxsize =>
    obtain ⟨-,hstep⟩ := Option.ite_none_left_eq_some.mp hstep
    have hvalid : ¬ maxsize < 1 := fun hlt => hs (Or.inl hlt)
    rw [if_neg hvalid] at hstep
    rw [FileStore.step,if_neg hvalid]
    exact create_lost h hsort (by omega) hs (Option.some.inj hstep)
  | _ => exact absurd trivial hs

theorem pair_eq {x y : Bmfs × List BmfsFile} {c : BmfsCommand} (h : pair sort x c = some y) :
    ∃ answer s', x.1.step sort c = some (answer,s') ∧
      y = (s',(FileStore.step x.1.limit x.2 c).2) := by
  obtain ⟨⟨answer,s'⟩,hs,rfl⟩ := Option.map_eq_some_iff.mp h
  exact ⟨answer,s',hs,rfl⟩

variable {disksize : ℕ} {disk : ℕ → UInt8} {cs : List BmfsCommand} {x : Bmfs × List BmfsFile}

/-- In every sequence of calls the disk shows the files of the store all the time exactly if
every creation is sound, and then each call prints what the store answers. -/
theorem refines_store (hsort : Sorts sort) (hmin : 4 ≤ disksize) (hmax : disksize < 2^32)
    (hr : Runs.run (pair sort) (formatted disksize disk) cs = some x) :
    (Runs.Always (pair sort) Shows (formatted disksize disk) cs ↔
      Runs.Along (pair sort) (fun y => Sound y.1) (formatted disksize disk) cs) ∧
    (Runs.Along (pair sort) (fun y => Sound y.1) (formatted disksize disk) cs →
      Runs.Along (pair sort) (Alike sort) (formatted disksize disk) cs) := by
  have hstart : Ok (formatted disksize disk).1 ∧ Shows (formatted disksize disk) :=
    (ok_of_empty (s := (formatted disksize disk).1) rfl ⟨hmin,hmax⟩ (used_ended rfl)).imp id
      List.Perm.of_eq
  have hkeep : ∀ (y : Bmfs × List BmfsFile) c z, Ok y.1 ∧ Shows y → Sound y.1 c →
      pair sort y c = some z → Ok z.1 ∧ Shows z := by
    rintro y c z ⟨hok,hshows⟩ hsound hstep
    obtain ⟨answer,s',hs,rfl⟩ := pair_eq hstep
    obtain ⟨hok',-,hperm⟩ := step_ok hok hsort hsound hs
    exact ⟨hok',hperm.trans (FileStore.step_perm hshows hok.names_files c).2⟩
  refine ⟨Runs.always_iff_along (I := fun y => Ok y.1 ∧ Shows y) (fun y hy => hy.2) hkeep ?_ hstart
    hr,fun halong => (Runs.Along.invariant (D := Alike sort) hkeep ?_ hstart halong).1⟩
  · rintro y c z ⟨hok,hshows⟩ hstep hz
    by_contra hsound
    obtain ⟨answer,s',hs,rfl⟩ := pair_eq hstep
    exact step_lost hok hsort hsound hs
      (hz.trans (FileStore.step_perm hshows hok.names_files c).2.symm)
  · rintro y c ⟨hok,hshows⟩ hsound ⟨answer,s'⟩ hs
    obtain ⟨-,hanswer,-⟩ := step_ok hok hsort hsound hs
    exact hanswer.symm.trans (FileStore.step_perm hshows hok.names_files c).1

/-! ### A run -/

def Ordered (a b : BMFSEntry) : Prop :=
  b.deleted = true ∨ (a.deleted = false ∧ a.startingBlock ≤ b.startingBlock)

instance (a b : BMFSEntry) : Decidable (Ordered a b) := inferInstanceAs (Decidable (_ ∨ _))

theorem sorts_insertionSort : Sorts (List.insertionSort Ordered) := by
  intro l hl
  have htotal : Std.Total Ordered := by
    refine ⟨fun a b => ?_⟩
    unfold Ordered
    cases a.deleted <;> cases b.deleted <;> simp [Nat.le_total]
  have htrans : IsTrans BMFSEntry Ordered := by
    refine ⟨fun a b c hab hbc => ?_⟩
    unfold Ordered at hab hbc ⊢
    rcases hbc with hbc | ⟨hb,hbc⟩
    · exact Or.inl hbc
    · rw [hb] at hab
      obtain ⟨ha,hab⟩ := hab.resolve_left Bool.false_ne_true
      exact Or.inr ⟨ha,hab.trans hbc⟩
  have hperm := List.perm_insertionSort Ordered l
  refine ⟨hperm,(List.pairwise_insertionSort Ordered l).imp_of_mem (fun {a b} ha hb hab => ?_)⟩
  have ha' := hl a (hperm.mem_iff.mp ha)
  have hb' := hl b (hperm.mem_iff.mp hb)
  cases hda : a.deleted with
  | true =>
    rcases hab with hdb | ⟨hda',-⟩
    · exact Or.inr ⟨rfl,hdb⟩
    · rw [hda] at hda'
      cases hda'
  | false =>
    rw [startingBlockCmp,hda,if_neg Bool.false_ne_true]
    cases hdb : b.deleted with
    | true => exact Or.inl (by simp)
    | false =>
      obtain ⟨-,hle⟩ := hab.resolve_left (by rw [hdb]; exact Bool.false_ne_true)
      rw [if_neg Bool.false_ne_true,WrappedInts.Fits.wrap_eq ⟨by omega,by omega⟩]
      exact Or.inl (by omega)

/-- Two files of one and of two blocks; the first is written and deleted. -/
def twoFiles : List BmfsCommand :=
  [.create ⟨[97],by decide,by decide,by decide,by decide⟩ 2,
    .create ⟨[98],by decide,by decide,by decide,by decide⟩ 4,
    .write ⟨[97],by decide,by decide,by decide,by decide⟩ [1,2,3],
    .delete ⟨[97],by decide,by decide,by decide,by decide⟩]

/-- A third of three blocks is put over the second. -/
def overlapping : List BmfsCommand :=
  twoFiles++[.create ⟨[99],by decide,by decide,by decide,by decide⟩ 6]

theorem refines_store_overlapping :
    (∃ x, Runs.run (pair (List.insertionSort Ordered)) (formatted 12 (fun _ => 0)) twoFiles = some x ∧
      Runs.Always (pair (List.insertionSort Ordered)) Shows (formatted 12 (fun _ => 0)) twoFiles) ∧
    ∃ x, Runs.run (pair (List.insertionSort Ordered)) (formatted 12 (fun _ => 0)) overlapping = some x ∧
      ¬ Runs.Always (pair (List.insertionSort Ordered)) Shows (formatted 12 (fun _ => 0)) overlapping := by
  have hr : (Runs.run (pair (List.insertionSort Ordered)) (formatted 12 (fun _ => 0))
      twoFiles).isSome := by decide +kernel
  have hr' : (Runs.run (pair (List.insertionSort Ordered)) (formatted 12 (fun _ => 0))
      overlapping).isSome := by decide +kernel
  obtain ⟨x,hx⟩ := Option.isSome_iff_exists.mp hr
  obtain ⟨x',hx'⟩ := Option.isSome_iff_exists.mp hr'
  refine ⟨⟨x,hx,?_⟩,⟨x',hx',fun h => ?_⟩⟩
  · exact (refines_store sorts_insertionSort (by decide) (by decide) hx).1.mpr (by decide +kernel)
  · have halong := (refines_store sorts_insertionSort (by decide) (by decide) hx').1.mp h
    exact absurd halong (by decide +kernel)

end ComplexOS.Bmfs
