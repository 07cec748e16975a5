import ComplexOS.Heap.Ownership
import ComplexOS.Scheduler.CreationRuns

/-! # The blocks of a process until it is gone

From its creation on, the process owns the blocks that have been taken for it. It gives
them back one by one when its entry point has returned, or somebody who kills it gives back
the stack and the record. All others ask for blocks and give back their own in between.
-/
namespace ComplexOS
open BuddyAllocator Runs

structure Estate where
  argc : ℕ
  argv : ArgumentArray
  stack : ℕ
  record : ℕ

/-- An address to release: a known one, or the one in the record of the thread, which lies in
the stack. -/
inductive Release
  | known (a : ℕ)
  | stackAgain
  deriving DecidableEq

/-- The releases of `callProcess`, then those of `terminateThread` and of the kill that it
ends in. The loop over the arguments goes from the last one to the first. -/
def Estate.releases (e : Estate) : List Release :=
  (if e.argv.address ≠ null then
    (List.range e.argc).reverse.map (fun i => .known (e.argv.entries i).address)++
      [.known e.argv.address]
  else [])++[.known e.stack,.stackAgain,.known e.record]

inductive Phase
  | alive
  | leaving (todo : List Release)
  | gone
  /-- A release has looked outside the arrays of the heap. -/
  | wild
  deriving DecidableEq

structure Life where
  memory : RunState
  mine : List Block
  others : List Block
  phase : Phase

inductive LifeStep
  | other (q : Request)
  | leave
  | release (a : ℕ)
  /-- `a` is what the killer finds for the stack. -/
  | kill (a : ℕ)

namespace Life

def Covers (e : Estate) (b : Block) : Prop :=
  b.address < e.stack+threadInitialPages*pageSize ∧ e.stack < b.address+b.bytes

instance (e : Estate) (b : Block) : Decidable (Covers e b) := inferInstanceAs (Decidable (_ ∧ _))

/-- The record of the thread says where the stack is, until somebody else has the memory. -/
def Finds (e : Estate) (s : Life) (a : ℕ) : Prop := a = e.stack ∨ ∃ b ∈ s.others, Covers e b

instance (e : Estate) (s : Life) (a : ℕ) : Decidable (Finds e s a) :=
  inferInstanceAs (Decidable (_ ∨ ∃ b ∈ s.others, Covers e b))

/-- The others ask for blocks, and give back their own. -/
def Decent (s : Life) : Request → Prop
  | .allocatePages q => (Request.allocatePages q).Valid
  | .freeMemory a => (Request.freeMemory a).Valid ∧ ∀ b ∈ s.mine, b.address ≠ a

instance (s : Life) : ∀ q, Decidable (s.Decent q)
  | .allocatePages q => inferInstanceAs (Decidable (Request.allocatePages q).Valid)
  | .freeMemory a =>
    inferInstanceAs (Decidable ((Request.freeMemory a).Valid ∧ ∀ b ∈ s.mine, b.address ≠ a))

def share (s : Life) (m : RunState) : Request → List Block
  | .allocatePages _ => m.live.take (m.live.length-s.memory.live.length)++s.others
  | .freeMemory a => s.others.filter (·.address ≠ a)

def free (s : Life) (a : ℕ) (phase : Phase) : Life :=
  (serve s.memory (.freeMemory a)).elim { s with phase := .wild } (fun m =>
    { s with memory := m, mine := s.mine.filter (·.address ≠ a), phase := phase })

/-- A process can be found and killed until `removeProcess` has taken it out of the ring. -/
def Killable : Phase → Prop
  | .alive => True
  | .leaving todo => Release.stackAgain ∈ todo
  | _ => False

instance : ∀ p, Decidable (Killable p)
  | .alive => isTrue trivial
  | .leaving todo => inferInstanceAs (Decidable (Release.stackAgain ∈ todo))
  | .gone => isFalse id
  | .wild => isFalse id

def behind (todo : List Release) : Phase := if todo = [] then .gone else .leaving todo

def Reads (e : Estate) (s : Life) (a : ℕ) : Release → Prop
  | .known b => a = b
  | .stackAgain => s.Finds e a

instance (e : Estate) (s : Life) (a : ℕ) : ∀ x, Decidable (s.Reads e a x)
  | .known b => inferInstanceAs (Decidable (a = b))
  | .stackAgain => inferInstanceAs (Decidable (s.Finds e a))

def step (e : Estate) (s : Life) : LifeStep → Option Life
  | .other q => if s.Decent q then
      (serve s.memory q).map (fun m => { s with memory := m, others := s.share m q })
    else none
  | .leave => if s.phase = .alive then some { s with phase := .leaving e.releases } else none
  | .release a => match s.phase with
    | .leaving (x::todo) => if s.Reads e a x then some (s.free a (behind todo)) else none
    | _ => none
  | .kill a => if Killable s.phase ∧ s.Finds e a then
      some (if (s.free a .gone).phase = .wild then s.free a .gone
        else (s.free a .gone).free e.record .gone)
    else none

/-- The blocks are those of the process and those of the others, and in the end the process
has none. -/
structure Conserved (s : Life) : Prop where
  blocks : s.memory.live.Perm (s.mine++s.others)
  gone : s.phase = .gone → s.mine = []
  tame : s.phase ≠ .wild

/-- No release meets a block of somebody else, and a kill finds no block that it does not
release. -/
def Calm (e : Estate) (s : Life) : LifeStep → Prop
  | .release a => Harmless s.memory s.mine a
  | .kill a => Harmless s.memory s.mine a ∧ Harmless s.memory s.mine e.record ∧
    ∀ b ∈ s.mine, b.address = a ∨ b.address = e.record
  | _ => True

structure Kept (e : Estate) (s : Life) : Prop where
  divided : Divided s.memory s.mine s.others
  record : InArena e.record
  alive : s.phase = .alive → ∀ b ∈ s.mine, .known b.address ∈ e.releases
  leaving : ∀ todo, s.phase = .leaving todo → ∀ b ∈ s.mine, .known b.address ∈ todo
  gone : s.phase = .gone → s.mine = []
  tame : s.phase ≠ .wild

variable {e : Estate} {s s' : Life} {a : ℕ} {l : LifeStep} {p : Phase}

theorem Kept.conserved (h : s.Kept e) : s.Conserved := ⟨h.divided.blocks,h.gone,h.tame⟩

theorem free_cases (a : ℕ) (p : Phase) :
    (serve s.memory (.freeMemory a) = none ∧ s.free a p = { s with phase := .wild }) ∨
      ∃ m, serve s.memory (.freeMemory a) = some m ∧ s.free a p =
        { s with memory := m, mine := s.mine.filter (·.address ≠ a), phase := p } := by
  unfold free
  cases serve s.memory (.freeMemory a) with
  | none => exact Or.inl ⟨rfl,rfl⟩
  | some m => exact Or.inr ⟨m,rfl,rfl⟩

/-- A harmless release takes the block from the process. -/
theorem free_harmless (h : Divided s.memory s.mine s.others) (hh : Harmless s.memory s.mine a) :
    (s.free a p).phase = p ∧ (s.free a p).mine = s.mine.filter (·.address ≠ a) ∧
      (s.free a p).others = s.others ∧
        Divided (s.free a p).memory (s.mine.filter (·.address ≠ a)) s.others := by
  obtain ⟨m,hm,hd⟩ := h.free hh
  obtain ⟨hn,-⟩ | ⟨m',hm',he⟩ := free_cases (s := s) a p
  · rw [hm] at hn
    cases hn
  · obtain rfl := Option.some.inj (hm.symm.trans hm')
    rw [he]
    exact ⟨rfl,rfl,rfl,hd⟩

/-- A release that leaves everybody else's blocks where they are has been harmless. -/
theorem harmless_of_free (h : Divided s.memory s.mine s.others) (ht : (s.free a p).phase ≠ .wild)
    (hk : ∀ b ∈ s.others, b ∈ (s.free a p).memory.live) : Harmless s.memory s.mine a := by
  obtain ⟨-,he⟩ | ⟨m,hm,he⟩ := free_cases (s := s) a p
  · rw [he] at ht
    exact absurd rfl ht
  · rw [he] at hk
    exact h.harmless_of_kept hm hk

theorem request_divided {q : Request} {m : RunState} (h : Divided s.memory s.mine s.others)
    (hq : s.Decent q) (hm : serve s.memory q = some m) : Divided m s.mine (s.share m q) := by
  cases q with
  | allocatePages q =>
    have hv : (Request.allocatePages q).Valid := hq
    obtain ⟨m',hm',hok⟩ := serve_ok h.ok hv
    obtain rfl := Option.some.inj (hm'.symm.trans hm)
    obtain ⟨news,hlive⟩ := serve_allocate hm
    have hnews : m'.live.take (m'.live.length-s.memory.live.length) = news := by
      rw [hlive,List.length_append,Nat.add_sub_cancel,List.take_left]
    unfold share
    rw [hnews]
    exact h.allocate hok hlive
  | freeMemory a => exact h.released hm hq.2

/-- What a release leaves to do, for the blocks that are still there. -/
theorem todo_of_release {x : Release} {todo : List Release} {b : Block} (hr : s.Reads e a x)
    (hb : .known b.address ∈ x::todo) (hne : b.address ≠ a) : Release.known b.address ∈ todo := by
  rcases List.mem_cons.mp hb with he | hb
  · subst he
    exact absurd hr.symm hne
  · exact hb

theorem kill_harmless (h : s.Kept e) (ha : Harmless s.memory s.mine a)
    (hr : Harmless s.memory s.mine e.record) :
    Harmless (s.free a .gone).memory (s.free a .gone).mine e.record := by
  obtain ⟨-,hmine,-,hd⟩ := free_harmless (p := .gone) h.divided ha
  rw [hmine]
  exact hd.harmless h.record (hr.ne_others h.divided)

theorem step_kept (h : s.Kept e) (hc : s.Calm e l) (hx : s.step e l = some s') : s'.Kept e := by
  cases l with
  | other q =>
    obtain ⟨hq,hx⟩ := Option.ite_none_right_eq_some.mp hx
    obtain ⟨m,hm,rfl⟩ := Option.map_eq_some_iff.mp hx
    exact ⟨request_divided h.divided hq hm,h.record,h.alive,h.leaving,h.gone,h.tame⟩
  | leave =>
    obtain ⟨hp,hx⟩ := Option.ite_none_right_eq_some.mp hx
    cases hx
    refine ⟨h.divided,h.record,fun ha => (by cases ha),fun todo ht => ?_,fun hg => (by cases hg),
      fun hw => (by cases hw)⟩
    cases ht
    exact h.alive hp
  | release a =>
    simp only [step] at hx
    split at hx
    · rename_i x todo hp
      obtain ⟨hr,hx⟩ := Option.ite_none_right_eq_some.mp hx
      obtain rfl := Option.some.inj hx
      obtain ⟨hphase,hmine,hothers,hd⟩ := free_harmless (p := behind todo) h.divided hc
      have htodo : ∀ b ∈ s.mine.filter (·.address ≠ a), Release.known b.address ∈ todo := by
        intro b hb
        obtain ⟨hb,hne⟩ := List.mem_filter.mp hb
        exact todo_of_release hr (h.leaving _ hp b hb) (of_decide_eq_true hne)
      refine ⟨?_,h.record,fun ha => ?_,fun todo' ht => ?_,fun hg => ?_,fun hw => ?_⟩
      · rw [hmine,hothers]
        exact hd
      · rw [hphase] at ha
        unfold behind at ha
        split at ha
        · cases ha
        · cases ha
      · rw [hphase] at ht
        rw [hmine]
        unfold behind at ht
        split at ht
        · cases ht
        · cases ht
          exact htodo
      · rw [hphase] at hg
        rw [hmine]
        unfold behind at hg
        split at hg
        · rename_i hnil
          subst hnil
          exact List.eq_nil_iff_forall_not_mem.mpr (fun b hb => List.not_mem_nil (htodo b hb))
        · cases hg
      · rw [hphase] at hw
        unfold behind at hw
        split at hw
        · cases hw
        · cases hw
    · cases hx
  | kill a =>
    obtain ⟨-,hx⟩ := Option.ite_none_right_eq_some.mp hx
    obtain ⟨ha,hr,hall⟩ := hc
    obtain ⟨hphase,hmine,hothers,hd⟩ := free_harmless (p := .gone) h.divided ha
    have hr' := kill_harmless h ha hr
    rw [if_neg (by rw [hphase]; exact fun hw => (by cases hw))] at hx
    obtain rfl := Option.some.inj hx
    have hd' : Divided (s.free a .gone).memory (s.free a .gone).mine (s.free a .gone).others := by
      rw [hmine,hothers]
      exact hd
    obtain ⟨hphase',hmine',hothers',hd''⟩ := free_harmless (p := .gone) hd' hr'
    refine ⟨?_,h.record,fun hp => ?_,fun todo hp => ?_,fun _ => ?_,fun hp => ?_⟩
    · rw [hmine',hothers']
      exact hd''
    · rw [hphase'] at hp
      cases hp
    · rw [hphase'] at hp
      cases hp
    · rw [hmine',hmine]
      refine List.eq_nil_iff_forall_not_mem.mpr (fun b hb => ?_)
      obtain ⟨hb,hne⟩ := List.mem_filter.mp hb
      obtain ⟨hb,hne'⟩ := List.mem_filter.mp hb
      have hstack : b.address ≠ a := of_decide_eq_true hne'
      have hrecord : b.address ≠ e.record := of_decide_eq_true hne
      exact (hall b hb).elim hstack hrecord
    · rw [hphase'] at hp
      cases hp

theorem Conserved.others_live (h : s.Conserved) : ∀ b ∈ s.others, b ∈ s.memory.live :=
  fun _ hb => h.blocks.mem_iff.mpr (List.mem_append_right _ hb)

theorem free_others : (s.free a p).others = s.others := by
  obtain ⟨-,he⟩ | ⟨m,-,he⟩ := free_cases (s := s) a p
  · rw [he]
  · rw [he]

theorem step_calm (h : s.Kept e) (hx : s.step e l = some s') (hc : s'.Conserved) : s.Calm e l := by
  cases l with
  | other q => trivial
  | leave => trivial
  | release a =>
    simp only [step] at hx
    split at hx
    · obtain ⟨-,hx⟩ := Option.ite_none_right_eq_some.mp hx
      obtain rfl := Option.some.inj hx
      refine harmless_of_free h.divided hc.tame (fun b hb => hc.others_live b ?_)
      rw [free_others]
      exact hb
    · cases hx
  | kill a =>
    obtain ⟨-,hx⟩ := Option.ite_none_right_eq_some.mp hx
    split at hx
    · rename_i hw
      obtain rfl := Option.some.inj hx
      exact absurd hw hc.tame
    rename_i htame
    obtain rfl := Option.some.inj hx
    have hothers : ((s.free a .gone).free e.record .gone).others = s.others := by
      rw [free_others,free_others]
    -- the first release has left the blocks of the others, for they are there behind the second
    obtain ⟨-,he⟩ | ⟨m,hm,he⟩ := free_cases (s := s) a .gone
    · rw [he] at htame
      exact absurd rfl htame
    obtain ⟨hok,hlive⟩ := h.divided.ok.serve_free hm
    obtain ⟨-,he'⟩ | ⟨m',hm',he'⟩ := free_cases (s := s.free a .gone) e.record .gone
    · exact absurd (congrArg Life.phase he') hc.tame
    have hmem : (s.free a .gone).memory = m := congrArg Life.memory he
    rw [hmem] at hm'
    obtain ⟨-,hlive'⟩ := hok.serve_free hm'
    have hkept : ∀ b ∈ s.others, b.address ≠ a ∧ b.address ≠ e.record := by
      intro b hb
      have hb' := hc.others_live b (by rw [hothers]; exact hb)
      rw [he'] at hb'
      change b ∈ m'.live at hb'
      rw [hlive',hlive] at hb'
      obtain ⟨hb',hne⟩ := List.mem_filter.mp hb'
      exact ⟨of_decide_eq_true (List.mem_filter.mp hb').2,of_decide_eq_true hne⟩
    have ha : Harmless s.memory s.mine a := by
      refine h.divided.harmless_of_kept hm (fun b hb => ?_)
      rw [hlive]
      exact List.mem_filter.mpr ⟨h.divided.mem_others hb,decide_eq_true (hkept b hb).1⟩
    refine ⟨ha,h.divided.harmless h.record (fun b hb => (hkept b hb).2),fun b hb => ?_⟩
    have hnil := hc.gone (congrArg Life.phase he')
    rw [he',he] at hnil
    by_contra hne
    rw [not_or] at hne
    have hin : b ∈ (s.mine.filter (·.address ≠ a)).filter (·.address ≠ e.record) :=
      List.mem_filter.mpr ⟨List.mem_filter.mpr ⟨hb,decide_eq_true hne.1⟩,decide_eq_true hne.2⟩
    change (s.mine.filter (·.address ≠ a)).filter (·.address ≠ e.record) = [] at hnil
    rw [hnil] at hin
    cases hin

/-- The address of a release, where nobody else has had the memory of the stack. -/
def address (e : Estate) : Release → ℕ
  | .known a => a
  | .stackAgain => e.stack

def exit (e : Estate) : List LifeStep := .leave::e.releases.map (fun x => .release (address e x))

/-- Where the others have no block at any of the addresses, the releases are harmless one
after the other. -/
theorem run_releases (todo : List Release) (h : s.Kept e) (hp : s.phase = behind todo)
    (hn : ∀ x ∈ todo, InArena (address e x) ∧ ∀ b ∈ s.others, b.address ≠ address e x) :
    (∃ t, run (step e) s (todo.map (fun x => .release (address e x))) = some t) ∧
      Along (step e) (Calm e) s (todo.map (fun x => .release (address e x))) := by
  induction todo generalizing s with
  | nil => exact ⟨⟨s,rfl⟩,trivial⟩
  | cons x todo ih =>
    obtain ⟨ha,hne⟩ := hn x List.mem_cons_self
    have hcalm : s.Calm e (.release (address e x)) := h.divided.harmless ha hne
    have hreads : s.Reads e (address e x) x := by
      cases x with
      | known a => rfl
      | stackAgain => exact Or.inl rfl
    have hphase : s.phase = .leaving (x::todo) := hp
    have hstep : s.step e (.release (address e x)) =
        some (s.free (address e x) (behind todo)) := by
      simp only [step,hphase]
      exact if_pos hreads
    obtain ⟨hbehind,-,hothers,-⟩ := free_harmless (p := behind todo) h.divided hcalm
    obtain ⟨⟨t,ht⟩,hrest⟩ := ih (step_kept h hcalm hstep) hbehind (fun y hy => by
      rw [hothers]
      exact hn y (List.mem_cons_of_mem _ hy))
    refine ⟨⟨t,run_cons.mpr ⟨_,hstep,ht⟩⟩,hcalm,fun u hu => ?_⟩
    obtain rfl := Option.some.inj (hstep.symm.trans hu)
    exact hrest

theorem run_exit (h : s.Kept e) (hp : s.phase = .alive) (hne : e.releases ≠ [])
    (hn : ∀ x ∈ e.releases, InArena (address e x) ∧ ∀ b ∈ s.others, b.address ≠ address e x) :
    (∃ t, run (step e) s (exit e) = some t) ∧ Along (step e) (Calm e) s (exit e) := by
  have hstep : s.step e .leave = some { s with phase := .leaving e.releases } := if_pos hp
  have hbehind : Phase.leaving e.releases = behind e.releases := (if_neg hne).symm
  obtain ⟨⟨t,ht⟩,hrest⟩ := run_releases e.releases (step_kept (l := .leave) h trivial hstep) hbehind hn
  refine ⟨⟨t,run_cons.mpr ⟨_,hstep,ht⟩⟩,trivial,fun u hu => ?_⟩
  obtain rfl := Option.some.inj (hstep.symm.trans hu)
  exact hrest

/-! ### From the creation on -/

end Life

namespace Launch
open Scheduler Session
variable {l l' : Launch} {r : RunRequest} {e : Estate} {ret : ℤ} {p : ProcessRecord} {stack : ℕ}
  {copy : ArgumentArray}

def Succeeds (l : Launch) (r : RunRequest) (l' : Launch) (e : Estate) : Prop :=
  ∃ ret j p th g, sysRunProcess r l = .ok (ret,l') ∧ 0 ≤ ret ∧ l'.session.scheduler.Has j p ∧
    p.pid = ret ∧ (p.threads 0).thread = some th ∧ l'.programs ret = some g ∧
      g.argc = e.argc ∧ e.argv = g.argv ∧ e.stack = th.memoryBase ∧ e.record = p.address

def newBlocks (l l' : Launch) : List Block :=
  l'.memory.live.take (l'.memory.live.length-l.memory.live.length)

def born (l l' : Launch) : Life := ⟨l'.memory,newBlocks l l',l.memory.live,.alive⟩

theorem newBlocks_eq {news : List Block} (h : l'.memory.live = news++l.memory.live) :
    newBlocks l l' = news := by
  unfold newBlocks
  rw [h,List.length_append,Nat.add_sub_cancel,List.take_left]

/-- In front of the table the new process is not found. -/
theorem Ok.front_absent {program : Program} {background : ℕ} {l₁ : Launch} {q : ProcessRecord} {j : ℤ}
    (h : l.Ok) (hp : Prepared l program p stack l₁) (hv : ¬ l.session.HasSlot)
    (hx : Launch.enterProcess background p l₁ = .ok (ret,l')) (hret : 0 ≤ ret)
    (hq : l'.session.scheduler.Has j q) : q.pid ≠ ret := by
  intro hpid
  obtain ⟨hcreated,hs₁⟩ := hp.created
  obtain ⟨d,hd,hres⟩ := h.enterProcess_front hp hv hx
  obtain ⟨q',hq',hsim,-⟩ := hres.has j q hq
  have hold : l.session.scheduler.Has j q' := by
    have hj := hq'.2
    rw [hd,if_neg hq'.1.ne_front] at hj
    exact ⟨hq'.1,hj⟩
  have hlt := (h.session.ok.pids j q' hold).2
  have hr : ret = p.pid := by
    obtain ⟨hr,-⟩ := enterProcess_ok.mp hx
    unfold Scheduler.addProcess at hr
    split at hr
    · exact hr
    · rw [hr] at hret
      cases hret
  rw [← hsim.pid,hpid,hr,hcreated.pid] at hlt
  exact lt_irrefl _ hlt

/-- A process that has been found is the one that has been created. -/
theorem Ok.created_process (h : l.Ok) (h0 : l.session.scheduler.processQuantity ≠ 0)
    (hs : Succeeds l r l' e) : ∃ copy m p stack l₁, BackedUp l r copy m ∧
      Prepared { l with memory := m } (r.program copy) p stack l₁ ∧ l'.memory = l₁.memory ∧
        e.argv = copy ∧ toInt r.argc = e.argc ∧ e.stack = stack ∧ e.record = p.address := by
  obtain ⟨ret,j,p',th,g,hx,hret,hp',hpid,hth,hg,hargc,hargv,hstack,hrecord⟩ := hs
  have hslot := fun hv => (h.sysRunProcess hv hx).session.ok.distinct
  obtain ⟨copy,m,p,stack,l₁,hback,hp,hx⟩ := h.sysRunProcess_ok hx
  have hok : Ok { l with memory := m } := ⟨h.session,hback.ok⟩
  have hv : l.session.HasSlot := by
    by_contra hv
    exact hok.front_absent hp hv hx hret hp' hpid
  obtain ⟨hvacant,hforeground⟩ := hok.enterProcess_provided h0 hv hp hx hret
  obtain ⟨s,hx',hentered⟩ := hok.enterProcess hp hvacant hforeground
  have heq : (p.pid,{ l₁ with session := s }) = (ret,l') := Except.ok.inj (hx'.symm.trans hx)
  obtain ⟨rfl,rfl⟩ := Prod.mk.inj heq
  obtain ⟨i,-,hi,-⟩ := hentered.slot
  obtain rfl : j = i := hslot hv j i p' p hp' hi hpid
  obtain rfl : p' = p := hp'.eq hi
  rw [hp.ready] at hth
  rw [hp.programs,Function.update_self] at hg
  obtain rfl := Option.some.inj hth
  obtain rfl := Option.some.inj hg
  unfold RunRequest.program at hargc hargv
  dsimp only at hargc hargv
  exact ⟨copy,m,p',stack,l₁,hback,hp,rfl,hargv,hargc,hstack,hrecord⟩

theorem mem_releases {a : ℕ} (hn : e.argv.address ≠ null) (ha : a ∈ argumentBlocks e.argc e.argv) :
    Release.known a ∈ e.releases := by
  unfold argumentBlocks at ha
  unfold Estate.releases
  rw [if_pos hn]
  refine List.mem_append_left _ ?_
  split at ha
  · rcases List.mem_cons.mp ha with rfl | ha
    · exact List.mem_append_right _ List.mem_cons_self
    · obtain ⟨k,hk,rfl⟩ := List.mem_map.mp ha
      refine List.mem_append_left _ (List.mem_map.mpr ⟨k,?_,rfl⟩)
      rw [List.mem_reverse,List.mem_range]
      have hlt := (List.mem_range'_1.mp hk).2
      omega
  · cases ha

theorem Ok.grown (h : l.Ok) (h0 : l.session.scheduler.processQuantity ≠ 0)
    (hs : Succeeds l r l' e) : l'.memory.live = newBlocks l l'++l.memory.live := by
  obtain ⟨copy,m,p,stack,l₁,hback,hp,hm,-⟩ := h.created_process h0 hs
  obtain ⟨news,hlive⟩ : ∃ news, l'.memory.live = news++l.memory.live := by
    rw [hm]
    obtain hshort | hall := hback.obtained hp
    · obtain ⟨news,hlive,-⟩ := hshort.blocks
      exact ⟨news,hlive⟩
    · obtain ⟨news,hlive,-⟩ := hall.blocks
      exact ⟨news,hlive⟩
  rw [newBlocks_eq hlive]
  exact hlive

/-- A process owns nothing but what its exit will release. -/
theorem Ok.born_kept (h : l.Ok) (h0 : l.session.scheduler.processQuantity ≠ 0)
    (hs : Succeeds l r l' e) : (born l l').Kept e := by
  have hgrown := h.grown h0 hs
  obtain ⟨copy,m,p,stack,l₁,hback,hp,hm,hargv,hargc,hstack,hrecord⟩ := h.created_process h0 hs
  have hok : RunOk l'.memory := by
    rw [hm]
    exact hp.blocks.ok
  refine ⟨⟨hok,?_⟩,?_,fun _ b hb => ?_,fun todo ht => (by cases ht),fun hg => (by cases hg),
    fun hw => (by cases hw)⟩
  · exact List.Perm.of_eq hgrown
  · obtain ⟨news,hlive,hnews⟩ := hp.blocks.blocks
    have hmem : p.address ∈ news.map Block.address := by
      rw [hnews]
      simp
    obtain ⟨b,hb,hba⟩ := List.mem_map.mp hmem
    rw [hrecord,← hba]
    refine hok.address_inArena ?_
    rw [hm,hlive]
    exact List.mem_append_left _ hb
  · have hb' : b ∈ newBlocks l l' := hb
    have hlive : b ∈ l₁.memory.live := by
      rw [← hm,hgrown]
      exact List.mem_append_left _ hb'
    have hold : b ∉ l.memory.live := by
      intro hx
      have hnd := hok.live_nodup
      rw [hgrown] at hnd
      exact (List.nodup_append.mp hnd).2.2 b hb' b hx rfl
    obtain ha | hb := hp.blocks.mem hlive
    · unfold Estate.releases
      refine List.mem_append_right _ ?_
      rw [hstack,hrecord]
      simp only [List.mem_cons,List.not_mem_nil,or_false] at ha ⊢
      rcases ha with ha | ha
      · exact Or.inr (Or.inr (congrArg Release.known ha))
      · exact Or.inl (congrArg Release.known ha)
    · obtain ⟨hn,ha⟩ | hb := hback.covered b hb
      · rw [hargc] at ha
        exact mem_releases (hargv ▸ hn) (hargv ▸ ha)
      · exact absurd hb hold

/-- Where everything is provided, the process owns one block for each of its requests. -/
theorem Ok.starts {n : ℕ} (h : l.Ok) (h0 : l.session.scheduler.processQuantity ≠ 0)
    (hr : Provided l r) (hn : toInt r.argc = n) : ∃ l' copy stack record,
      Succeeds l r l' ⟨n,copy,stack,record⟩ ∧
        ((newBlocks l l').map Block.address).Perm (argumentBlocks n copy++[record,stack]) := by
  obtain ⟨ret,l',hx,hret,p,stack,copy,ha⟩ := h.adds hr
  obtain ⟨j,-,hj,-⟩ := ha.entered.slot
  have hargc : (r.program copy).argc = n := by
    dsimp only [RunRequest.program]
    exact hn
  have hs : Succeeds l r l' ⟨n,copy,stack,p.address⟩ := by
    refine ⟨ret,j,p,_,_,hx,hret,hj,ha.returned.symm,ha.ready,?_,hargc,rfl,rfl,rfl⟩
    rw [ha.returned]
    exact ha.program
  refine ⟨l',copy,stack,p.address,hs,?_⟩
  have hperm := ha.blocks
  unfold addresses at hperm
  rw [h.grown h0 hs,List.map_append,hn] at hperm
  exact (List.perm_append_right_iff _).mp hperm

/-- With arguments, all that the exit releases has been taken for the process. -/
theorem mem_of_releases (hpos : 0 < e.argc) {x : Release} (hx : x ∈ e.releases) :
    Life.address e x ∈ argumentBlocks e.argc e.argv++[e.record,e.stack] := by
  have hblocks : argumentBlocks e.argc e.argv = e.argv.address::
      (List.range' 0 e.argc).map (fun k => (e.argv.entries k).address) :=
    if_pos (Int.natCast_pos.mpr hpos)
  rw [hblocks]
  unfold Estate.releases at hx
  rcases List.mem_append.mp hx with hx | hx
  · refine List.mem_append_left _ ?_
    split at hx
    · rcases List.mem_append.mp hx with hx | hx
      · obtain ⟨k,hk,rfl⟩ := List.mem_map.mp hx
        rw [List.mem_reverse,List.mem_range] at hk
        refine List.mem_cons_of_mem _ (List.mem_map.mpr ⟨k,?_,rfl⟩)
        exact List.mem_range'_1.mpr (by omega)
      · obtain rfl := List.mem_singleton.mp hx
        exact List.mem_cons_self
    · cases hx
  · refine List.mem_append_right _ ?_
    simp only [List.mem_cons,List.not_mem_nil,or_false] at hx
    rcases hx with rfl | rfl | rfl
    · exact List.mem_cons_of_mem _ List.mem_cons_self
    · exact List.mem_cons_of_mem _ List.mem_cons_self
    · exact List.mem_cons_self

/-- A process that has arguments gives back all its blocks when it leaves by itself. -/
theorem Ok.exit_calm {n : ℕ} (h : l.Ok) (h0 : l.session.scheduler.processQuantity ≠ 0)
    (hr : Provided l r) (hn : toInt r.argc = n) (hpos : 0 < n) : ∃ l' e, Succeeds l r l' e ∧
      e.argc = n ∧ (∃ s, run (Life.step e) (born l l') (Life.exit e) = some s) ∧
        Along (Life.step e) (Life.Calm e) (born l l') (Life.exit e) := by
  obtain ⟨l',copy,stack,record,hs,hperm⟩ := h.starts h0 hr hn
  have hkept := h.born_kept h0 hs
  refine ⟨l',_,hs,rfl,Life.run_exit hkept rfl ?_ (fun x hx => ?_)⟩
  · exact List.append_ne_nil_of_right_ne_nil _ (List.cons_ne_nil _ _)
  · have hmem := mem_of_releases hpos hx
    obtain ⟨b,hb,hba⟩ := List.mem_map.mp (hperm.mem_iff.mpr hmem)
    rw [← hba]
    exact ⟨hkept.divided.ok.address_inArena (hkept.divided.mem_mine hb),
      fun c hc => hkept.divided.address_ne hb hc⟩

variable {s₀ : Session} {init shell : ProcessRecord} {a b : ℕ} {ls : List LaunchStep}
  {steps : List LifeStep} {s : Life}

/-- All blocks of a process are given back, and no others, exactly if each release of its exit
is of a block of the process or of none, and nobody kills the process as long as it has
copies of its arguments. -/
theorem process_lifetime (h₀ : startSystem init shell a b = some s₀)
    (h : run step (start s₀) ls = some l) (h0 : l.session.scheduler.processQuantity ≠ 0)
    (hs : Succeeds l r l' e) (hrun : run (Life.step e) (born l l') steps = some s) :
    Always (Life.step e) Life.Conserved (born l l') steps ↔
      Along (Life.step e) (Life.Calm e) (born l l') steps := by
  have hok : l.Ok := invariant (fun _ _ _ hs hx => step_ok hs hx) (start_ok h₀) h
  exact always_iff_along (fun _ => Life.Kept.conserved) (fun _ _ _ hs => Life.step_kept hs)
    (fun _ _ _ hs => Life.step_calm hs) (hok.born_kept h0 hs) hrun

/-- A process with two arguments that nobody kills. -/
theorem process_lifetime_echo : ∃ s₀ l' e, startSystem (sample 0) (sample 0) 0 0 = some s₀ ∧
    s₀.scheduler.processQuantity ≠ 0 ∧ Succeeds (start s₀) echoStart l' e ∧ e.argc = 2 ∧
      Always (Life.step e) Life.Conserved (born (start s₀) l') (Life.exit e) := by
  obtain ⟨s₀,h₀,h0,hv,hpid⟩ : ∃ s₀, startSystem (sample 0) (sample 0) 0 0 = some s₀ ∧
      s₀.scheduler.processQuantity ≠ 0 ∧ Vacant s₀ ∧ s₀.nextPid < maxInt :=
    ⟨_,rfl,by decide,⟨by decide,by decide⟩,by decide⟩
  have hroom : hasRoom echoStart.pages initializeHeap = true := by decide +kernel
  have hprov : Provided (start s₀) echoStart := ⟨hroom,hv,hpid,fun hb => (by cases hb)⟩
  obtain ⟨l',e,hs,hargc,⟨s,hrun⟩,hcalm⟩ :=
    (start_ok h₀).exit_calm h0 hprov (n := 2) (by decide) (by decide)
  exact ⟨s₀,l',e,h₀,h0,hs,hargc,(process_lifetime h₀ (run_nil _) h0 hs hrun).mpr hcalm⟩

/-- The kill of a process in front of its return. -/
theorem run_kill (l l' : Launch) (e : Estate) :
    ∃ s, run (Life.step e) (born l l') [.kill e.stack] = some s := by
  have hk : Life.Killable (born l l').phase ∧ (born l l').Finds e e.stack := ⟨trivial,Or.inl rfl⟩
  have hstep : ∃ s, Life.step e (born l l') (.kill e.stack) = some s := ⟨_,if_pos hk⟩
  obtain ⟨s,hs⟩ := hstep
  exact ⟨s,run_cons.mpr ⟨s,hs,rfl⟩⟩

def oneArgument : RunRequest := { plainStart with argc := 1 }

/-- The kill leaves the copy of the argument behind, and the array with it. -/
theorem process_lifetime_fails : ∃ s₀ l l' e, startSystem (sample 0) (sample 0) 0 0 = some s₀ ∧
    run step (start s₀) ([1,2,1,2].map (fun q => .request (.allocatePages q))) = some l ∧
      l.session.scheduler.processQuantity ≠ 0 ∧ Succeeds l oneArgument l' e ∧
        ¬ Always (Life.step e) Life.Conserved (born l l') [.kill e.stack] := by
  obtain ⟨s₀,h₀,h0,hv,hpid⟩ : ∃ s₀, startSystem (sample 0) (sample 0) 0 0 = some s₀ ∧
      s₀.scheduler.processQuantity ≠ 0 ∧ Vacant s₀ ∧ s₀.nextPid < maxInt :=
    ⟨_,rfl,by decide,⟨by decide,by decide⟩,by decide⟩
  have hok := start_ok h₀
  have hall : hasRoom [1,2,1,2] initializeHeap = true := by decide +kernel
  obtain ⟨m,hrun,hrest⟩ := run_requests (l := start s₀) [1,2,1,2] (by decide) hok.memory hall
  have hroom : hasRoom ([1,2,1,2]++oneArgument.pages) initializeHeap = true := by decide +kernel
  have hok' := invariant (fun _ _ _ hs hx => step_ok hs hx) hok hrun
  have hprov : Provided { start s₀ with memory := m } oneArgument :=
    ⟨(hrest _).symm.trans hroom,hv,hpid,fun hb => (by cases hb)⟩
  obtain ⟨l',copy,stack,record,hs,hperm⟩ := hok'.starts h0 hprov (n := 1) (by decide)
  refine ⟨s₀,_,l',_,h₀,hrun,h0,hs,fun ha => ?_⟩
  obtain ⟨s,hkill⟩ := run_kill { start s₀ with memory := m } l' ⟨1,copy,stack,record⟩
  have hkept := hok'.born_kept h0 hs
  obtain ⟨t,ht,-⟩ := run_cons.mp hkill
  have hcalm := Life.step_calm hkept ht (ha [.kill stack] t (List.prefix_refl _)
    (run_cons.mpr ⟨t,ht,rfl⟩))
  -- the array is a third block
  have hblocks : argumentBlocks ((1 : ℕ) : ℤ) copy = [copy.address,(copy.entries 0).address] := rfl
  rw [hblocks] at hperm
  obtain ⟨b,hb,hba⟩ := List.mem_map.mp (hperm.mem_iff.mpr List.mem_cons_self)
  have hnd : ((newBlocks { start s₀ with memory := m } l').map Block.address).Nodup := by
    refine List.Nodup.map_on (fun b hb c hc he => ?_) ?_
    · exact hkept.divided.ok.address_inj (hkept.divided.mem_mine hb) (hkept.divided.mem_mine hc) he
    · exact (List.nodup_append.mp (hkept.divided.blocks.nodup_iff.mp hkept.divided.ok.live_nodup)).1
  have hnd' := hperm.nodup_iff.mp hnd
  have hcases := hcalm.2.2 b hb
  rw [hba] at hcases
  simp only [List.cons_append,List.nil_append,List.nodup_cons,List.mem_cons,not_or] at hnd'
  exact hcases.elim hnd'.1.2.2.1 hnd'.1.2.1

end Launch
end ComplexOS
