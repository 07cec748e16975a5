import ComplexOS.Library.ByteMemory
import Mathlib.Data.Int.Notation

/-! # The module image

The packer writes the kernel, the number of modules, and each module behind its size. The
loader walks over the same image and copies the modules out. What it prints is left out.
-/
namespace ComplexOS
open ByteMemory

/-! ### The packer -/

namespace ModulePacker

/-- `BUFFER_SIZE` of the packer. -/
def packerBufferSize : ℕ := 128

/-- The loop of `write_file`: the end of the source is seen when a read comes back short. -/
def writeFile (target source : List UInt8) : List UInt8 :=
  if (source.take packerBufferSize).length < packerBufferSize then
    target++source.take packerBufferSize
  else writeFile (target++source.take packerBufferSize) (source.drop packerBufferSize)
termination_by source.length
decreasing_by
  rw [List.length_take,List.length_drop] at *
  unfold packerBufferSize at *
  omega

/-- `st_size` goes through a `uint32_t`. -/
def writeSize (target file : List UInt8) : List UInt8 := target++wordBytes (file.length % 2^32)

def buildImage (kernelFile : List UInt8) (modules : List (List UInt8)) : List UInt8 :=
  modules.foldl (fun target file => writeFile (writeSize target file) file)
    (writeFile [] kernelFile++wordBytes modules.length)

end ModulePacker

/-! ### The loader -/

/-- `module_t`, without the name. -/
structure Module where
  address : ℕ
  size : ℤ

structure ModuleLoader where
  memory : ℕ → UInt8
  modules : ℕ → Module
  currentModule : ℕ
  lastModule : ℕ

def moduleDistance : ℕ := 0x0100000

namespace ModuleLoader

/-- The loop of `memcpy` over bytes. -/
def copyBytes (destination source : ℕ) : ℕ → ℕ → (ℕ → UInt8) → ℕ → UInt8
  | 0, _, m => m
  | n+1, i, m => copyBytes destination source n (i+1)
      (Function.update m (destination+i) (m (source+i)))

/-- The loop of `memcpy` over words of four bytes. -/
def copyWords (destination source : ℕ) : ℕ → ℕ → (ℕ → UInt8) → ℕ → UInt8
  | 0, _, m => m
  | n+1, i, m => copyWords destination source n (i+1) (place m (destination+4*i)
      [m (source+4*i),m (source+4*i+1),m (source+4*i+2),m (source+4*i+3)])

def memcpy (m : ℕ → UInt8) (destination source length : ℕ) : ℕ → UInt8 :=
  if destination % 4 = 0 ∧ source % 4 = 0 ∧ length % 4 = 0 then
    copyWords destination source (length/4) 0 m
  else copyBytes destination source length 0 m

variable (s : ModuleLoader)

def readUint32 : ℕ × ModuleLoader :=
  (readWord s.memory s.currentModule,{ s with currentModule := s.currentModule+4 })

/-- The size is stored in an `int`. -/
def loadModule (i : ℕ) : ModuleLoader :=
  let (moduleSize,s) := s.readUint32
  { memory := memcpy s.memory s.lastModule s.currentModule moduleSize
    modules := Function.update s.modules i ⟨s.lastModule,(BitVec.ofNat 32 moduleSize).toInt⟩
    currentModule := s.currentModule+moduleSize
    lastModule := s.lastModule+moduleDistance }

/-- The loop of `loadModules` from index `i` on. -/
def loadFrom : ℕ → ℕ → ModuleLoader → ModuleLoader
  | 0, _, s => s
  | n+1, i, s => loadFrom n (i+1) (s.loadModule i)

def loadModules (memory : ℕ → UInt8) (payloadStart : ℕ) (modules : ℕ → Module) (dropStart : ℕ) :
    ModuleLoader :=
  let (moduleCount,s) := readUint32 ⟨memory,modules,payloadStart,dropStart⟩
  loadFrom moduleCount 0 s

end ModuleLoader

/-! ### What the packer writes -/

namespace ModulePacker
variable {target source file kernelFile : List UInt8} {modules : List (List UInt8)}

theorem writeFile_eq : writeFile target source = target++source := by
  induction target, source using writeFile.induct with
  | case1 target source hshort =>
    rw [writeFile,if_pos hshort]
    rw [List.length_take] at hshort
    rw [List.take_of_length_le (by omega)]
  | case2 target source hlong ih =>
    rw [writeFile,if_neg hlong,ih,List.append_assoc,List.take_append_drop]

def packed : List (List UInt8) → List UInt8
  | [] => []
  | file::files => wordBytes (file.length % 2^32)++file++packed files

theorem buildImage_eq :
    buildImage kernelFile modules = kernelFile++wordBytes modules.length++packed modules := by
  have hfold : ∀ (files : List (List UInt8)) (target : List UInt8),
      files.foldl (fun target file => writeFile (writeSize target file) file) target =
        target++packed files := by
    intro files
    induction files with
    | nil =>
      intro target
      simp [packed]
    | cons file files ih =>
      intro target
      rw [List.foldl_cons,ih,writeFile_eq,writeSize,packed]
      simp only [List.append_assoc]
  unfold buildImage
  rw [hfold,writeFile_eq,List.nil_append]

end ModulePacker

/-! ### What the loader makes of it -/

namespace ModuleLoader
variable {m : ℕ → UInt8} {bs : List UInt8} {destination source n i : ℕ}

theorem copyBytes_placed (h : Placed m (source+i) bs)
    (hd : ∀ x, Within (source+i) bs x → ¬ Within (destination+i) bs x) :
    copyBytes destination source bs.length i m = place m (destination+i) bs := by
  induction bs generalizing m i with
  | nil => rfl
  | cons b bs ih =>
    obtain ⟨hb,hrest⟩ := placed_cons.mp h
    rw [List.length_cons,copyBytes,place,hb]
    have hkeep : Placed (Function.update m (destination+i) b) (source+(i+1)) bs := by
      refine hrest.congr (fun x hx => Function.update_of_ne ?_ _ _)
      rintro rfl
      refine hd (destination+i) ?_ ⟨Nat.le_refl _,by simp⟩
      obtain ⟨hle,hlt⟩ := hx
      exact ⟨by omega,by rw [List.length_cons]; omega⟩
    refine ih hkeep (fun x hx hx' => hd x ?_ ?_)
    · obtain ⟨hle,hlt⟩ := hx
      exact ⟨by omega,by rw [List.length_cons]; omega⟩
    · obtain ⟨hle,hlt⟩ := hx'
      exact ⟨by omega,by rw [List.length_cons]; omega⟩

theorem copyWords_placed (hn : bs.length = 4*n) (h : Placed m (source+4*i) bs)
    (hd : ∀ x, Within (source+4*i) bs x → ¬ Within (destination+4*i) bs x) :
    copyWords destination source n i m = place m (destination+4*i) bs := by
  induction n generalizing m i bs with
  | zero =>
    obtain rfl := List.eq_nil_of_length_eq_zero hn
    rfl
  | succ n ih =>
    obtain ⟨word,rest,rfl,hword⟩ : ∃ word rest, bs = word++rest ∧ word.length = 4 :=
      ⟨bs.take 4,bs.drop 4,(List.take_append_drop 4 bs).symm,by rw [List.length_take]; omega⟩
    obtain ⟨hw,hrest⟩ := placed_append.mp h
    rw [List.length_append,hword] at hn
    rw [hword] at hrest
    have hread : [m (source+4*i),m (source+4*i+1),m (source+4*i+2),m (source+4*i+3)] = word := by
      match word, hword, hw with
      | [a,b,c,d], _, hw => rw [← hw 0 a rfl,← hw 1 b rfl,← hw 2 c rfl,← hw 3 d rfl]; rfl
    rw [copyWords,hread,place_append,hword]
    have hkeep : Placed (place m (destination+4*i) word) (source+4*(i+1)) rest := by
      have hnext : Placed m (source+4*(i+1)) rest := by
        rw [Nat.mul_succ,← Nat.add_assoc]
        exact hrest
      refine hnext.congr (fun x hx => place_outside (fun hw => ?_))
      obtain ⟨hle,hlt⟩ := hx
      obtain ⟨hle',hlt'⟩ := hw
      refine hd x ⟨by omega,by rw [List.length_append]; omega⟩ ⟨hle',?_⟩
      rw [List.length_append]
      omega
    have hdone := ih (i := i+1) (by omega) hkeep (fun x hx hx' => ?_)
    · rw [hdone,Nat.mul_succ,← Nat.add_assoc]
    · obtain ⟨hle,hlt⟩ := hx
      obtain ⟨hle',hlt'⟩ := hx'
      refine hd x ⟨by omega,?_⟩ ⟨by omega,?_⟩
      · rw [List.length_append]
        omega
      · rw [List.length_append]
        omega

/-- Both loops of `memcpy` copy, as long as the areas are apart. -/
theorem memcpy_placed (h : Placed m source bs)
    (hd : ∀ x, Within source bs x → ¬ Within destination bs x) :
    memcpy m destination source bs.length = place m destination bs := by
  unfold memcpy
  split
  · rename_i halign
    exact copyWords_placed (i := 0) (by omega) h hd
  · exact copyBytes_placed (i := 0) h hd

/-! ### All modules -/

def overlay : (ℕ → UInt8) → ℕ → List (List UInt8) → ℕ → UInt8
  | m, _, [] => m
  | m, a, file::files => overlay (place m a file) (a+moduleDistance) files

def Written (a : ℕ) (files : List (List UInt8)) (x : ℕ) : Prop :=
  ∃ j f, files[j]? = some f ∧ Within (a+j*moduleDistance) f x

/-- Each module is described as it is, and the bytes of its file are where it says. -/
def RoundTrip (files : List (List UInt8)) (s : ModuleLoader) : Prop :=
  ∀ i f, files[i]? = some f →
    (s.modules i).size = f.length ∧ Placed s.memory (s.modules i).address f

/-- Where a file is so long that a later one is loaded over its end, both agree. -/
def Compatible (files : List (List UInt8)) : Prop :=
  ∀ i j f g, i < j → files[i]? = some f → files[j]? = some g →
    ∀ k b c, f[(j-i)*moduleDistance+k]? = some b → g[k]? = some c → b = c

variable {s : ModuleLoader} {files : List (List UInt8)} {a : ℕ}

theorem next_address (j : ℕ) : a+(j+1)*moduleDistance = a+moduleDistance+j*moduleDistance := by
  rw [Nat.succ_mul]
  omega

theorem written_cons {file : List UInt8} {x : ℕ} :
    Written a (file::files) x ↔ Within a file x ∨ Written (a+moduleDistance) files x := by
  constructor
  · rintro ⟨j,f,hj,hx⟩
    cases j with
    | zero =>
      cases hj
      rw [Nat.zero_mul,Nat.add_zero] at hx
      exact Or.inl hx
    | succ j =>
      rw [next_address] at hx
      exact Or.inr ⟨j,f,hj,hx⟩
  · rintro (hx | ⟨j,f,hj,hx⟩)
    · refine ⟨0,file,rfl,?_⟩
      rw [Nat.zero_mul,Nat.add_zero]
      exact hx
    · rw [← next_address] at hx
      exact ⟨j+1,f,hj,hx⟩

/-- One round: the size is read, the file copied, and the cursors moved. -/
theorem loadModule_eq {file rest : List UInt8} (hsize : file.length < 2^31)
    (hi : Placed s.memory s.currentModule (wordBytes (file.length % 2^32)++file++rest))
    (hd : ∀ x, Within s.currentModule (wordBytes (file.length % 2^32)++file++rest) x →
      ¬ Within s.lastModule file x) :
    s.loadModule i = ⟨place s.memory s.lastModule file,
      Function.update s.modules i ⟨s.lastModule,file.length⟩,s.currentModule+4+file.length,
        s.lastModule+moduleDistance⟩ := by
  have hlen : file.length % 2^32 = file.length := Nat.mod_eq_of_lt (by omega)
  rw [hlen] at hi hd
  obtain ⟨hfile,-⟩ := placed_append.mp hi
  obtain ⟨hword,hfile⟩ := placed_append.mp hfile
  have hread : readWord s.memory s.currentModule = file.length := readWord_placed hword (by omega)
  have hcopy : memcpy s.memory s.lastModule (s.currentModule+4) file.length =
      place s.memory s.lastModule file := by
    refine memcpy_placed hfile (fun x hx => hd x ?_)
    obtain ⟨hle,hlt⟩ := hx
    refine ⟨by omega,?_⟩
    rw [List.length_append,List.length_append]
    change x < s.currentModule+(4+file.length+rest.length)
    omega
  have hint : (BitVec.ofNat 32 file.length).toInt = file.length := by
    rw [BitVec.toInt_eq_toNat_of_lt]
    · rw [BitVec.toNat_ofNat,hlen]
    · rw [BitVec.toNat_ofNat,hlen]
      omega
  unfold loadModule readUint32
  dsimp only
  rw [hread,hcopy,hint]

/-- The loop leaves the image alone, writes the files one after the other, and describes each. -/
theorem loadFrom_spec (hi : Placed s.memory s.currentModule (ModulePacker.packed files))
    (hsize : ∀ f ∈ files, f.length < 2^31)
    (hd : ∀ x, Within s.currentModule (ModulePacker.packed files) x →
      ¬ Written s.lastModule files x) :
    (loadFrom files.length i s).memory = overlay s.memory s.lastModule files ∧
      (∀ j f, files[j]? = some f → (loadFrom files.length i s).modules (i+j) =
        ⟨s.lastModule+j*moduleDistance,f.length⟩) ∧
        ∀ j, j < i → (loadFrom files.length i s).modules j = s.modules j := by
  induction files generalizing s i with
  | nil => exact ⟨rfl,fun j f hj => (by cases hj),fun _ _ => rfl⟩
  | cons file files ih =>
    have hlen : (wordBytes (file.length % 2^32)++file).length = 4+file.length := by
      rw [List.length_append]
      rfl
    have hround : s.loadModule i = ⟨place s.memory s.lastModule file,
        Function.update s.modules i ⟨s.lastModule,file.length⟩,s.currentModule+4+file.length,
          s.lastModule+moduleDistance⟩ := by
      refine loadModule_eq (hsize file List.mem_cons_self) hi (fun x hx hw => hd x hx ?_)
      exact written_cons.mpr (Or.inl hw)
    obtain ⟨-,hrest⟩ := placed_append.mp hi
    rw [hlen,← Nat.add_assoc] at hrest
    have hwithin : ∀ x, Within (s.currentModule+4+file.length) (ModulePacker.packed files) x →
        Within s.currentModule (ModulePacker.packed (file::files)) x := by
      rintro x ⟨hle,hlt⟩
      refine ⟨by omega,?_⟩
      rw [ModulePacker.packed,List.length_append,hlen]
      omega
    have hkeep : Placed (place s.memory s.lastModule file) (s.currentModule+4+file.length)
        (ModulePacker.packed files) := by
      refine hrest.congr (fun x hx => place_outside (fun hw => hd x (hwithin x hx) ?_))
      exact written_cons.mpr (Or.inl hw)
    obtain ⟨hmemory,hmodules,hbefore⟩ := ih (s := ⟨place s.memory s.lastModule file,
      Function.update s.modules i ⟨s.lastModule,file.length⟩,s.currentModule+4+file.length,
        s.lastModule+moduleDistance⟩) (i := i+1) hkeep
      (fun f hf => hsize f (List.mem_cons_of_mem _ hf))
      (fun x hx hw => hd x (hwithin x hx) (written_cons.mpr (Or.inr hw)))
    rw [List.length_cons,loadFrom,hround]
    refine ⟨hmemory,fun j f hj => ?_,fun j hj => ?_⟩
    · cases j with
      | zero =>
        cases hj
        refine (hbefore i (Nat.lt_succ_self i)).trans ?_
        dsimp only
        rw [Function.update_self,Nat.zero_mul,Nat.add_zero]
      | succ j =>
        rw [Nat.add_comm j 1,← Nat.add_assoc,hmodules j f hj,Nat.add_comm 1 j,Nat.succ_mul]
        refine congrArg (fun x => (⟨x,f.length⟩ : Module)) ?_
        dsimp only
        omega
    · rw [hbefore j (by omega)]
      exact Function.update_of_ne (by omega) _ _

/-! ### What is left of the earlier modules -/

theorem overlay_outside {m : ℕ → UInt8} {x : ℕ} (h : ¬ Written a files x) :
    overlay m a files x = m x := by
  induction files generalizing m a with
  | nil => rfl
  | cons file files ih =>
    rw [written_cons,not_or] at h
    rw [overlay,ih h.2,place_outside h.1]

def AllPlaced (m : ℕ → UInt8) (a : ℕ) (files : List (List UInt8)) : Prop :=
  ∀ j f, files[j]? = some f → Placed m (a+j*moduleDistance) f

theorem allPlaced_cons {m : ℕ → UInt8} {file : List UInt8} : AllPlaced m a (file::files) ↔
    Placed m a file ∧ AllPlaced m (a+moduleDistance) files := by
  constructor
  · refine fun h => ⟨?_,fun j f hj => ?_⟩
    · have hfirst := h 0 file rfl
      rw [Nat.zero_mul] at hfirst
      exact hfirst
    · rw [← next_address]
      exact h (j+1) f hj
  · rintro ⟨hfirst,h⟩ j f hj
    cases j with
    | zero =>
      cases hj
      rw [Nat.zero_mul]
      exact hfirst
    | succ j =>
      rw [next_address]
      exact h j f hj

theorem compatible_cons {file : List UInt8} : Compatible (file::files) ↔
    (∀ j g, files[j]? = some g → ∀ k b c, file[(j+1)*moduleDistance+k]? = some b → g[k]? = some c →
      b = c) ∧ Compatible files := by
  constructor
  · refine fun h => ⟨fun j g hj => h 0 (j+1) file g (Nat.succ_pos j) rfl hj,?_⟩
    intro i j f g hij hi hj k b c hb
    apply h (i+1) (j+1) f g (Nat.succ_lt_succ hij) hi hj k b c
    rw [Nat.succ_sub_succ]
    exact hb
  · rintro ⟨hfirst,h⟩ i j f g hij hi hj k b c hb
    obtain ⟨j,rfl⟩ := Nat.exists_eq_succ_of_ne_zero (Nat.ne_zero_of_lt hij)
    cases i with
    | zero =>
      cases hi
      exact hfirst j g hj k b c hb
    | succ i =>
      rw [Nat.succ_sub_succ] at hb
      exact h i j f g (Nat.lt_of_succ_lt_succ hij) hi hj k b c hb

/-- A byte of the first file that is loaded over is what the file loaded over it has there. -/
theorem allPlaced_overlay {m : ℕ → UInt8} :
    AllPlaced (overlay m a files) a files ↔ Compatible files := by
  induction files generalizing m a with
  | nil => exact ⟨fun _ i j f g _ hi => (by cases hi),fun _ j f hj => (by cases hj)⟩
  | cons file files ih =>
    rw [overlay,allPlaced_cons,compatible_cons,ih]
    refine and_congr_left (fun hc => ?_)
    have hall : AllPlaced (overlay (place m a file) (a+moduleDistance) files) (a+moduleDistance)
        files := ih.mpr hc
    constructor
    · intro hp j g hj k b c hb hc
      have hfirst := hp _ b hb
      have hlater := hall j g hj k c hc
      rw [← next_address,Nat.add_assoc] at hlater
      exact hfirst.symm.trans hlater
    · intro hagree k b hb
      by_cases hw : Written (a+moduleDistance) files (a+k)
      · obtain ⟨j,g,hj,hx⟩ := hw
        obtain ⟨k',c,he,hc⟩ := hx.exists_getElem?
        have hk : k = (j+1)*moduleDistance+k' := by
          rw [← next_address] at he
          omega
        rw [he,hall j g hj k' c hc]
        exact (hagree j g hj k' b c (hk ▸ hb) hc).symm
      · rw [overlay_outside hw]
        exact placed_place k b hb

/-! ### The round trip -/

variable {kernelFile : List UInt8} {memory : ℕ → UInt8} {modules : ℕ → Module}
  {start dropStart : ℕ}

theorem loadModules_roundTrip (hcount : files.length ≤ 16) (hsize : ∀ f ∈ files, f.length < 2^31)
    (himage : Placed memory start (ModulePacker.buildImage kernelFile files))
    (happart : ∀ x, Within start (ModulePacker.buildImage kernelFile files) x →
      ¬ Written dropStart files x) :
    RoundTrip files (loadModules memory (start+kernelFile.length) modules dropStart) ↔
      AllPlaced (overlay memory dropStart files) dropStart files := by
  rw [ModulePacker.buildImage_eq] at himage happart
  obtain ⟨hhead,hpacked⟩ := placed_append.mp himage
  obtain ⟨-,hword⟩ := placed_append.mp hhead
  have hread : readWord memory (start+kernelFile.length) = files.length :=
    readWord_placed hword (by omega)
  have hload : loadModules memory (start+kernelFile.length) modules dropStart =
      loadFrom files.length 0 ⟨memory,modules,start+kernelFile.length+4,dropStart⟩ := by
    unfold loadModules readUint32
    dsimp only
    rw [hread]
  have hlen : (kernelFile++wordBytes files.length).length = kernelFile.length+4 := by
    rw [List.length_append]
    rfl
  rw [hlen,← Nat.add_assoc] at hpacked
  obtain ⟨hmemory,hmodules,-⟩ := loadFrom_spec (i := 0)
    (s := ⟨memory,modules,start+kernelFile.length+4,dropStart⟩) hpacked hsize (fun x hx hw => by
      obtain ⟨hle,hlt⟩ := hx
      refine happart x ⟨by dsimp only at hle; omega,?_⟩ hw
      rw [List.length_append,hlen]
      dsimp only at hlt
      omega)
  have hdescribed : ∀ j f, files[j]? = some f →
      (loadFrom files.length 0 ⟨memory,modules,start+kernelFile.length+4,dropStart⟩).modules j =
        ⟨dropStart+j*moduleDistance,f.length⟩ := by
    intro j f hj
    have hmodule := hmodules j f hj
    rw [Nat.zero_add] at hmodule
    exact hmodule
  rw [hload]
  constructor
  · intro h i f hi
    obtain ⟨-,hplaced⟩ := h i f hi
    rw [hmemory,hdescribed i f hi] at hplaced
    exact hplaced
  · intro h i f hi
    rw [hmemory,hdescribed i f hi]
    exact ⟨rfl,h i f hi⟩

/-- Files that fit between two modules are loaded over nothing. -/
theorem compatible_of_short (h : ∀ i f, files[i]? = some f → i+1 < files.length →
    f.length ≤ moduleDistance) : Compatible files := by
  intro i j f g hij hi hj k b c hb hc
  obtain ⟨hk,-⟩ := List.getElem?_eq_some_iff.mp hb
  obtain ⟨hlt,-⟩ := List.getElem?_eq_some_iff.mp hj
  have hshort := h i f hi (by omega)
  have hstep : moduleDistance ≤ (j-i)*moduleDistance := Nat.le_mul_of_pos_left _ (by omega)
  omega

def imageMemory (image : List UInt8) (a : ℕ) : UInt8 := image.getD a 0

theorem placed_imageMemory (image : List UInt8) : Placed (imageMemory image) 0 image := by
  intro k b hb
  rw [Nat.zero_add,imageMemory,List.getD_eq_getElem?_getD,hb]
  rfl

theorem imageMemory_apart (image : List UInt8) (x : ℕ) (h : Within 0 image x) :
    ¬ Written image.length files x := by
  rintro ⟨j,f,-,hx⟩
  have hlt := h.2
  have hle := hx.1
  omega

/-- All modules are where they should be exactly if those that are longer than the distance
between two modules agree with what is loaded over them. -/
theorem module_image (hcount : files.length ≤ 16) (hsize : ∀ f ∈ files, f.length < 2^31)
    (himage : Placed memory start (ModulePacker.buildImage kernelFile files))
    (happart : ∀ x, Within start (ModulePacker.buildImage kernelFile files) x →
      ¬ Written dropStart files x) :
    RoundTrip files (loadModules memory (start+kernelFile.length) modules dropStart) ↔
      Compatible files :=
  (loadModules_roundTrip hcount hsize himage happart).trans allPlaced_overlay

/-- A kernel of one byte and two modules. -/
theorem module_image_two : RoundTrip [[2,3],[4]] (loadModules
    (imageMemory (ModulePacker.buildImage [1] [[2,3],[4]])) (0+[(1 : UInt8)].length) (fun _ => ⟨0,0⟩)
      (ModulePacker.buildImage [1] [[2,3],[4]]).length) := by
  refine (module_image (by decide) (by decide) (placed_imageMemory _) (imageMemory_apart _)).mpr ?_
  refine compatible_of_short (fun i f hi hlt => ?_)
  obtain rfl : i = 0 := Nat.lt_one_iff.mp (Nat.lt_of_succ_lt_succ hlt)
  cases hi
  decide

/-- The first of two modules is one byte too long. -/
theorem module_image_fails : ¬ ∀ (kernelFile : List UInt8) (files : List (List UInt8))
    (memory : ℕ → UInt8) (modules : ℕ → Module) (start dropStart : ℕ), files.length ≤ 16 →
      (∀ f ∈ files, f.length < 2^31) →
        Placed memory start (ModulePacker.buildImage kernelFile files) →
          (∀ x, Within start (ModulePacker.buildImage kernelFile files) x →
            ¬ Written dropStart files x) →
              RoundTrip files (loadModules memory (start+kernelFile.length) modules dropStart) := by
  intro hall
  let long : List UInt8 := List.replicate (moduleDistance+1) 0
  have hcount : [long,[1]].length ≤ 16 := by decide
  have hsize : ∀ f ∈ [long,[1]], f.length < 2^31 := by
    intro f hf
    rcases List.mem_cons.mp hf with rfl | hf
    · rw [List.length_replicate]
      decide
    · rw [List.mem_singleton.mp hf]
      decide
  have himage := placed_imageMemory (ModulePacker.buildImage [] [long,[1]])
  have happart : ∀ x, Within 0 (ModulePacker.buildImage [] [long,[1]]) x →
      ¬ Written (ModulePacker.buildImage [] [long,[1]]).length [long,[1]] x := imageMemory_apart _
  have htrip := hall [] [long,[1]] _ (fun _ => ⟨0,0⟩) 0 _ hcount hsize himage happart
  have hcompatible := allPlaced_overlay.mp ((loadModules_roundTrip hcount hsize himage happart).mp htrip)
  have hlast : long[(1-0)*moduleDistance+0]? = some 0 := by
    rw [List.getElem?_replicate,if_pos (by decide)]
  have hsame : (0 : UInt8) = 1 := hcompatible 0 1 long [1] Nat.zero_lt_one rfl rfl 0 0 1 hlast rfl
  exact absurd hsame (by decide)

end ModuleLoader
end ComplexOS
