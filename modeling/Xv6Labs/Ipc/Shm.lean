import Mathlib.Data.Fintype.Card
import Mathlib.Data.Fintype.Pi
import Mathlib.Data.List.FinRange
import Mathlib.Data.Int.Notation
import Xv6Labs.Kit.Run
import Xv6Labs.Sched.Proc

/-! Shared pages of Task 3.1: `kernel/shm.c` and its hooks in `freeproc` and `kfork` of
`kernel/proc.c`. A page table maps page addresses to physical pages and has no entry where
`walk` finds nothing or an entry without `PTE_V`. The results of `kalloc` and `mappages` and
the pages `uvmcopy` fills are inputs of the calls. -/
namespace Xv6Labs.Shm
open Kit

abbrev maxShm : Nat := 64
abbrev nproc : Nat := 64
def pgsize : Nat := 4096
def shmBase : Nat := 0x40000000
/-- `MAXVA - PGSIZE`, with the trapframe one page below. -/
def trampoline : Nat := 2^38 - pgsize
def trapframe : Nat := trampoline - pgsize

/-- `SHMVA(slot)`. -/
def shmva (s : Fin maxShm) : Nat := shmBase + s*pgsize

/-- `struct shm_region`; a null `page` is 0. -/
structure Region where
  used : Bool
  key : Int
  page : Nat
  refCount : Int

/-- `if (ref_count > 0) ref_count--`. -/
def Region.dec (r : Region) : Region :=
  if r.refCount > 0 then { r with refCount := r.refCount - 1 } else r

abbrev PageTable := Nat → Option Nat

structure Proc where
  state : ProcState
  pagetable : Option PageTable
  sz : Nat

/-- Who holds a physical page: nobody, `shm.c`, or another part of the kernel. -/
inductive Owner where
  | free | shm | other
  deriving DecidableEq

/-- The table `shm`, the processes and the physical pages. `obtained` and `freed` are
histories: the pages `shm_create` took from `kalloc` and those `shm.c` gave to `kfree`. -/
structure State where
  reg : Fin maxShm → Region
  proc : Fin nproc → Proc
  owner : Nat → Owner
  mem : Nat → Nat → UInt8
  obtained : List Nat
  freed : List Nat

namespace State
variable (st : State)

/-- The valid entry of process `p` at `SHMVA(s)`. -/
def pte (p : Fin nproc) (s : Fin maxShm) : Option Nat :=
  (st.proc p).pagetable.bind fun pt => pt (shmva s)

def setPte (p : Fin nproc) (s : Fin maxShm) (v : Option Nat) : State :=
  { st with proc := Function.update st.proc p { st.proc p with
      pagetable := (st.proc p).pagetable.map fun pt => Function.update pt (shmva s) v } }

def setReg (s : Fin maxShm) (r : Region) : State :=
  { st with reg := Function.update st.reg s r }

def findSlotByKey (key : Int) : Option (Fin maxShm) :=
  (List.finRange maxShm).find? fun i => (st.reg i).used && (st.reg i).key == key

/-- The free slot `alloc_slot` takes. -/
def freeSlot : Option (Fin maxShm) :=
  (List.finRange maxShm).find? fun i => !(st.reg i).used

/-- `shm_create`, with the page `kalloc` returns. -/
def shmCreate (key : Int) (kalloc : Option Nat) : Int × State :=
  match st.findSlotByKey key with
  | some s => ((s.val : Int), st)
  | none =>
    match st.freeSlot with
    | none => (-1, st)
    | some s =>
      match kalloc with
      | none => (-1, st.setReg s ⟨false, key, 0, 0⟩)
      | some pa => ((s.val : Int), { st.setReg s ⟨true, key, pa, 0⟩ with
          owner := Function.update st.owner pa .shm
          mem := Function.update st.mem pa fun _ => 0
          obtained := st.obtained ++ [pa] })

/-- `shm_get`; `mapOk` tells whether `mappages` succeeds. -/
def shmGet (p : Fin nproc) (key : Int) (mapOk : Bool) : Nat × State :=
  match st.findSlotByKey key with
  | none => (0, st)
  | some s =>
    if (st.reg s).page = 0 then (0, st)
    else if (st.pte p s).isSome then (shmva s, st)
    else if mapOk then
      (shmva s, (st.setPte p s (some (st.reg s).page)).setReg s
        { st.reg s with refCount := (st.reg s).refCount + 1 })
    else (0, st)

/-- The common body of `shm_close` and of the loop of `shm_cleanup`. -/
def detach (p : Fin nproc) (s : Fin maxShm) : State :=
  if (st.pte p s).isSome then
    let r := Region.dec (st.reg s)
    if r.refCount = 0 ∧ r.page ≠ 0 then
      { (st.setPte p s none).setReg s { r with page := 0, used := false } with
        owner := Function.update st.owner r.page .free
        freed := st.freed ++ [r.page] }
    else (st.setPte p s none).setReg s r
  else st

def shmClose (p : Fin nproc) (key : Int) : Int × State :=
  match st.findSlotByKey key with
  | none => (-1, st)
  | some s => (0, st.detach p s)

/-- One turn of the loop of `shm_cleanup`. -/
def cleanupSlot (p : Fin nproc) (st : State) (s : Fin maxShm) : State :=
  if (st.reg s).used then st.detach p s else st

def shmCleanup (p : Fin nproc) : State :=
  (List.finRange maxShm).foldl (cleanupSlot p) st

def setProc (p : Fin nproc) (q : Proc) : State :=
  { st with proc := Function.update st.proc p q }

/-- `freeproc`; the private pages `uvmfree` returns are no concern of `shm.c`. -/
def freeproc (p : Fin nproc) : State :=
  (if (st.proc p).pagetable.isSome then st.shmCleanup p else st).setProc p ⟨.unused, none, 0⟩

/-- `proc_pagetable`: nothing but the trampoline and the trapframe. -/
def procPagetable (tramp frame : Nat) : PageTable := fun va =>
  if va = trampoline then some tramp
  else if va = trapframe then some frame
  else none

/-- `allocproc`, with the trapframe page of `kalloc` and the trampoline page that
`proc_pagetable` maps unless it runs out of memory. -/
def allocproc (frame tramp : Option Nat) : Option (Fin nproc) × State :=
  match (List.finRange nproc).find? fun p => (st.proc p).state == .unused with
  | none => (none, st)
  | some np =>
    let st := st.setProc np { st.proc np with state := .used }
    match frame, tramp with
    | some frame, some tramp =>
      (some np, st.setProc np { st.proc np with pagetable := some (procPagetable tramp frame) })
    | _, _ => (none, st.freeproc np)

/-- `uvmcopy`: every page mapped below `sz` gets a copy of its own. -/
def uvmcopy (old new : PageTable) (sz : Nat) (fresh : Nat → Nat) : PageTable := fun va =>
  if va < sz then (old va).map fun _ => fresh va else new va

/-- `kfork`; `copy` is `none` when `uvmcopy` runs out of memory. -/
def kfork (p : Fin nproc) (frame tramp : Option Nat) (copy : Option (Nat → Nat)) : State :=
  match st.allocproc frame tramp with
  | (none, st) => st
  | (some np, st) =>
    match copy with
    | none => st.freeproc np
    | some fresh => st.setProc np {
        state := .runnable
        pagetable := (st.proc p).pagetable.bind fun old => (st.proc np).pagetable.map fun new =>
          uvmcopy old new (st.proc p).sz fresh
        sz := (st.proc p).sz }

end State

/-- What can happen, each an atomic step under `shm.lock`. The last four stand for the rest
of the system: heap and faults below the window, `kalloc` and `kfree` of other pages, and
user stores to a shared page. -/
inductive Act where
  | create (p : Fin nproc) (key : Int) (kalloc : Option Nat)
  | get (p : Fin nproc) (key : Int) (mapOk : Bool)
  | close (p : Fin nproc) (key : Int)
  | fork (p : Fin nproc) (frame tramp : Option Nat) (copy : Option (Nat → Nat))
  | exit (p : Fin nproc)
  | reap (p : Fin nproc)
  | heap (p : Fin nproc) (user : PageTable) (sz : Nat)
  | kalloc (pa : Nat)
  | kfree (pa : Nat)
  | store (p : Fin nproc) (s : Fin maxShm) (i : Nat) (v : UInt8)

def Proc.Alive (q : Proc) : Prop := q.state ≠ .unused ∧ q.state ≠ .zombie

instance (q : Proc) : Decidable q.Alive := inferInstanceAs (Decidable (_ ∧ _))

/-- `kalloc` hands out pages that nobody holds, and never the null page. -/
def State.KallocOk (st : State) (kalloc : Option Nat) : Prop :=
  ∀ pa ∈ kalloc, pa ≠ 0 ∧ st.owner pa = .free

inductive Step : State → Act → State → Prop
  | create {st : State} {p : Fin nproc} {key : Int} {kalloc : Option Nat} :
      (st.proc p).Alive → st.KallocOk kalloc →
      Step st (.create p key kalloc) (st.shmCreate key kalloc).2
  | get {st : State} {p : Fin nproc} {key : Int} {mapOk : Bool} :
      (st.proc p).Alive → Step st (.get p key mapOk) (st.shmGet p key mapOk).2
  | close {st : State} {p : Fin nproc} {key : Int} :
      (st.proc p).Alive → Step st (.close p key) (st.shmClose p key).2
  | fork {st : State} {p : Fin nproc} {frame tramp : Option Nat} {copy : Option (Nat → Nat)} :
      (st.proc p).Alive → Step st (.fork p frame tramp copy) (st.kfork p frame tramp copy)
  | exit {st : State} {p : Fin nproc} :
      (st.proc p).Alive → Step st (.exit p) (st.setProc p { st.proc p with state := .zombie })
  | reap {st : State} {p : Fin nproc} :
      (st.proc p).state = .zombie → Step st (.reap p) (st.freeproc p)
  | heap {st : State} {p : Fin nproc} {user : PageTable} {sz : Nat} :
      (st.proc p).Alive → sz ≤ shmBase →
      Step st (.heap p user sz) (st.setProc p { st.proc p with
        pagetable := (st.proc p).pagetable.map fun pt va => if va < shmBase then user va else pt va
        sz := sz })
  | kalloc {st : State} {pa : Nat} : st.owner pa = .free →
      Step st (.kalloc pa) { st with owner := Function.update st.owner pa .other }
  | kfree {st : State} {pa : Nat} : st.owner pa = .other →
      Step st (.kfree pa) { st with owner := Function.update st.owner pa .free }
  | store {st : State} {p : Fin nproc} {s : Fin maxShm} {i : Nat} {v : UInt8} {pa : Nat} :
      (st.proc p).Alive → st.pte p s = some pa →
      Step st (.store p s i v)
        { st with mem := Function.update st.mem pa (Function.update (st.mem pa) i v) }

/-- After `shminit` and `userinit`: no region, and `initproc` alone in the table. -/
def State.init (frame tramp : Nat) (owner : Nat → Owner) (mem : Nat → Nat → UInt8) : State where
  reg := fun _ => ⟨false, 0, 0, 0⟩
  proc := fun p => if p = 0 then ⟨.runnable, some (State.procPagetable tramp frame), 0⟩
    else ⟨.unused, none, 0⟩
  owner := owner
  mem := mem
  obtained := []
  freed := []

/-! The invariant. -/

/-- `pa` is reachable through the shared window of some live page table. -/
def State.Mapped (st : State) (pa : Nat) : Prop := ∃ p s, st.pte p s = some pa

/-- The number of live page tables with a valid entry at `SHMVA(s)`. -/
def State.mappers (st : State) (s : Fin maxShm) : Finset (Fin nproc) :=
  Finset.univ.filter fun p => (st.pte p s).isSome

/-- `pa` is the page of a region in use. -/
def State.Live (st : State) (pa : Nat) : Prop := ∃ s, (st.reg s).used ∧ (st.reg s).page = pa

structure Inv (st : State) : Prop where
  page_ne : ∀ s, (st.reg s).used → (st.reg s).page ≠ 0
  owned : ∀ s, (st.reg s).used → st.owner (st.reg s).page = .shm
  refCount : ∀ s, (st.reg s).used → (st.reg s).refCount = (st.mappers s).card
  pte_page : ∀ p s pa, st.pte p s = some pa → (st.reg s).used ∧ pa = (st.reg s).page
  key_inj : ∀ s t, (st.reg s).used → (st.reg t).used → (st.reg s).key = (st.reg t).key → s = t
  page_inj : ∀ s t, (st.reg s).used → (st.reg t).used → (st.reg s).page = (st.reg t).page → s = t
  once_live : ∀ pa, st.Live pa → st.obtained.count pa = st.freed.count pa + 1
  once_dead : ∀ pa, ¬ st.Live pa → st.obtained.count pa = st.freed.count pa
  table : ∀ p, (st.proc p).pagetable = none ↔ (st.proc p).state = .unused
  size : ∀ p, (st.proc p).sz ≤ shmBase

/-- Between `st` and `st'` the pages given to `kfree` are those that lost their last
mapping, each of them once. -/
def FreedExactly (st st' : State) : Prop :=
  ∃ ks : List Nat, st'.freed = st.freed ++ ks ∧ ks.Nodup ∧
    ∀ pa, pa ∈ ks ↔ st.Mapped pa ∧ ¬ st'.Mapped pa

theorem shmva_inj {s t : Fin maxShm} (h : shmva s = shmva t) : s = t := by
  unfold shmva pgsize at h
  omega

variable {st st' : State} {p q : Fin nproc} {s t : Fin maxShm} {key : Int} {pa : Nat}

@[simp] theorem pte_setReg (r : Region) : (st.setReg s r).pte p t = st.pte p t := rfl

@[simp] theorem pte_setProc (q' : Proc) : (st.setProc p q').pte q s =
    if q = p then q'.pagetable.bind fun pt => pt (shmva s) else st.pte q s := by
  unfold State.setProc State.pte
  by_cases hq : q = p
  · subst hq; simp
  · simp [hq]

theorem pte_setPte {v : Option Nat} (h : (st.proc p).pagetable.isSome) :
    (st.setPte p s v).pte q t = if q = p ∧ t = s then v else st.pte q t := by
  obtain ⟨pt, hpt⟩ := Option.isSome_iff_exists.mp h
  unfold State.setPte State.pte
  by_cases hq : q = p
  · subst hq
    by_cases ht : t = s
    · subst ht; simp [hpt]
    · have hva : shmva t ≠ shmva s := fun hva => ht (shmva_inj hva)
      simp [hpt, ht, hva]
  · simp [hq]

theorem table_of_pte (h : (st.pte p s).isSome) : (st.proc p).pagetable.isSome := by
  unfold State.pte at h
  cases hpt : (st.proc p).pagetable with
  | none => simp [hpt] at h
  | some pt => rfl

theorem findSlotByKey_some (h : st.findSlotByKey key = some s) :
    (st.reg s).used ∧ (st.reg s).key = key := by
  simpa using List.find?_some h

theorem findSlotByKey_none (h : st.findSlotByKey key = none) (s : Fin maxShm)
    (hs : (st.reg s).used) : (st.reg s).key ≠ key := by
  have := List.find?_eq_none.mp h s (List.mem_finRange s)
  simpa [hs] using this

theorem freeSlot_some (h : st.freeSlot = some s) : ¬ (st.reg s).used := by
  simpa using List.find?_some h

/-- Steps that leave the regions, the window and the histories alone keep the invariant. -/
theorem Inv.congr (h : Inv st) (hreg : st'.reg = st.reg) (hpte : ∀ p s, st'.pte p s = st.pte p s)
    (hob : st'.obtained = st.obtained) (hfr : st'.freed = st.freed)
    (hown : ∀ pa, st.owner pa = .shm → st'.owner pa = .shm)
    (htab : ∀ p, (st'.proc p).pagetable = none ↔ (st'.proc p).state = .unused)
    (hsz : ∀ p, (st'.proc p).sz ≤ shmBase) : Inv st' := by
  have hlive : ∀ pa, st'.Live pa ↔ st.Live pa := by simp [State.Live, hreg]
  have hmap : ∀ s, st'.mappers s = st.mappers s := by simp [State.mappers, hpte]
  constructor
  · simpa [hreg] using h.page_ne
  · intro s hs
    rw [hreg] at hs ⊢
    exact hown _ (h.owned s hs)
  · simpa [hreg, hmap] using h.refCount
  · simpa [hreg, hpte] using h.pte_page
  · simpa [hreg] using h.key_inj
  · simpa [hreg] using h.page_inj
  · simpa [hlive, hob, hfr] using h.once_live
  · simpa [hlive, hob, hfr] using h.once_dead
  · exact htab
  · exact hsz

theorem FreedExactly.of_mapped (hfr : st'.freed = st.freed)
    (hm : ∀ pa, st.Mapped pa → st'.Mapped pa) : FreedExactly st st' := by
  refine ⟨[], by simp [hfr], List.nodup_nil, ?_⟩
  intro pa
  constructor
  · intro hpa; cases hpa
  · intro hpa; exact absurd (hm pa hpa.1) hpa.2

theorem FreedExactly.of_pte (hfr : st'.freed = st.freed)
    (hpte : ∀ p s, st'.pte p s = st.pte p s) : FreedExactly st st' :=
  .of_mapped hfr fun _ ⟨p, s, hps⟩ => ⟨p, s, (hpte p s).trans hps⟩

/-- Two stretches compose when neither of them maps a page anew. -/
theorem FreedExactly.trans {u v w : State} (huv : FreedExactly u v) (hvw : FreedExactly v w)
    (hv : ∀ pa, v.Mapped pa → u.Mapped pa) (hw : ∀ pa, w.Mapped pa → v.Mapped pa) :
    FreedExactly u w := by
  obtain ⟨ks, hks, hnd, hmem⟩ := huv
  obtain ⟨ks', hks', hnd', hmem'⟩ := hvw
  refine ⟨ks ++ ks', by simp [hks', hks], ?_, ?_⟩
  · refine hnd.append hnd' ?_
    intro pa h1 h2
    exact ((hmem pa).mp h1).2 ((hmem' pa).mp h2).1
  · intro pa
    rw [List.mem_append, hmem, hmem']
    constructor
    · intro hor
      cases hor with
      | inl h => exact ⟨h.1, fun hn => h.2 (hw pa hn)⟩
      | inr h => exact ⟨hv pa h.1, h.2⟩
    · intro h
      by_cases hm : v.Mapped pa
      · exact .inr ⟨hm, h.2⟩
      · exact .inl ⟨h.1, hm⟩

/-! Detaching one process from one slot. -/

theorem mem_mappers : p ∈ st.mappers s ↔ (st.pte p s).isSome := by simp [State.mappers]

theorem refCount_dec (h : Inv st) (hp : (st.pte p s).isSome) :
    (Region.dec (st.reg s)).refCount = ((st.mappers s).erase p).card := by
  obtain ⟨pa, hpa⟩ := Option.isSome_iff_exists.mp hp
  have hused := (h.pte_page p s pa hpa).1
  have hcard := Finset.card_erase_add_one (mem_mappers.mpr hp)
  have hcount := h.refCount s hused
  unfold Region.dec
  rw [if_pos (by omega)]
  simp only
  omega

theorem pte_detach : (st.detach p s).pte q t = if q = p ∧ t = s then none else st.pte q t := by
  unfold State.detach
  by_cases hp : (st.pte p s).isSome
  · have hset : (st.setPte p s none).pte q t = if q = p ∧ t = s then none else st.pte q t :=
      pte_setPte (table_of_pte hp)
    simp only [hp, if_true]
    split
    · exact hset
    · exact hset
  · rw [if_neg hp]
    split
    · next hqt => rw [hqt.1, hqt.2]; simpa using hp
    · rfl

theorem mappers_detach :
    (st.detach p s).mappers t = if t = s then (st.mappers s).erase p else st.mappers t := by
  ext q
  rw [mem_mappers, pte_detach]
  by_cases ht : t = s
  · subst ht
    by_cases hq : q = p
    · simp [hq]
    · simp [hq, mem_mappers]
  · simp [ht, mem_mappers]

/-- What `detach` does: nothing, one mapping fewer, or the last mapping and the page gone. -/
theorem detach_cases (h : Inv st) (p : Fin nproc) (s : Fin maxShm) :
    (st.pte p s = none ∧ st.detach p s = st) ∨
    (st.pte p s = some (st.reg s).page ∧ (st.reg s).used ∧ (st.mappers s).erase p ≠ ∅ ∧
      st.detach p s = (st.setPte p s none).setReg s
        { st.reg s with refCount := ((st.mappers s).erase p).card }) ∨
    (st.pte p s = some (st.reg s).page ∧ (st.reg s).used ∧ (st.mappers s).erase p = ∅ ∧
      st.detach p s = { (st.setPte p s none).setReg s
          { st.reg s with refCount := 0, page := 0, used := false } with
        owner := Function.update st.owner (st.reg s).page .free
        freed := st.freed ++ [(st.reg s).page] }) := by
  cases hp : st.pte p s with
  | none => exact .inl ⟨rfl, by simp [State.detach, hp]⟩
  | some pa =>
    have hsome : (st.pte p s).isSome := by simp [hp]
    obtain ⟨hused, rfl⟩ := h.pte_page p s pa hp
    have hdec := refCount_dec h hsome
    have hreg : Region.dec (st.reg s) =
        { st.reg s with refCount := ((st.mappers s).erase p).card } := by
      rw [← hdec]
      unfold Region.dec
      split <;> rfl
    by_cases hempty : (st.mappers s).erase p = ∅
    · refine .inr (.inr ⟨rfl, hused, hempty, ?_⟩)
      simp [State.detach, hsome, hreg, hempty, h.page_ne s hused]
    · refine .inr (.inl ⟨rfl, hused, hempty, ?_⟩)
      have hne : (((st.mappers s).erase p).card : Int) ≠ 0 := by
        simpa using hempty
      simp only [State.detach, hsome, hreg, hne, if_true, false_and, if_false]

@[simp] theorem setPte_state (v : Option Nat) :
    ((st.setPte p s v).proc q).state = (st.proc q).state := by
  unfold State.setPte
  by_cases hq : q = p
  · subst hq; simp
  · simp [hq]

@[simp] theorem setPte_sz (v : Option Nat) : ((st.setPte p s v).proc q).sz = (st.proc q).sz := by
  unfold State.setPte
  by_cases hq : q = p
  · subst hq; simp
  · simp [hq]

@[simp] theorem setPte_table (v : Option Nat) :
    ((st.setPte p s v).proc q).pagetable = none ↔ (st.proc q).pagetable = none := by
  unfold State.setPte
  by_cases hq : q = p
  · subst hq; simp
  · simp [hq]

theorem reg_setReg (r : Region) :
    (st.setReg s r).reg t = if t = s then r else st.reg t := by
  unfold State.setReg
  by_cases ht : t = s
  · subst ht; simp
  · simp [ht]

/-- `st'` is `st` everywhere but at slot `s` of the regions and of the windows. -/
structure SameOff (s : Fin maxShm) (st st' : State) : Prop where
  reg : ∀ t, t ≠ s → st'.reg t = st.reg t
  pte : ∀ q t, t ≠ s → st'.pte q t = st.pte q t
  owner : ∀ t, t ≠ s → (st.reg t).used → st'.owner (st.reg t).page = st.owner (st.reg t).page
  table : ∀ q, (st'.proc q).pagetable = none ↔ (st.proc q).pagetable = none
  state : ∀ q, (st'.proc q).state = (st.proc q).state
  size : ∀ q, (st'.proc q).sz = (st.proc q).sz

/-- What the invariant asks of one slot in use, the other slots given. -/
structure SlotOk (st : State) (s : Fin maxShm) : Prop where
  page_ne : (st.reg s).page ≠ 0
  owned : st.owner (st.reg s).page = .shm
  refCount : (st.reg s).refCount = (st.mappers s).card
  key_off : ∀ t, t ≠ s → (st.reg t).used → (st.reg t).key ≠ (st.reg s).key
  page_off : ∀ t, t ≠ s → (st.reg t).used → (st.reg t).page ≠ (st.reg s).page

/-- `pa` is the page of a region in use other than `s`. -/
def State.LiveOff (st : State) (s : Fin maxShm) (pa : Nat) : Prop :=
  ∃ t, t ≠ s ∧ (st.reg t).used ∧ (st.reg t).page = pa

theorem live_iff (s : Fin maxShm) {pa : Nat} :
    st.Live pa ↔ ((st.reg s).used ∧ (st.reg s).page = pa) ∨ st.LiveOff s pa := by
  constructor
  · intro hl
    obtain ⟨t, ht, hpa⟩ := hl
    by_cases hts : t = s
    · rw [← hts]
      exact .inl ⟨ht, hpa⟩
    · exact .inr ⟨t, hts, ht, hpa⟩
  · intro hl
    obtain ⟨hs, hpa⟩ | ⟨t, _, ht, hpa⟩ := hl
    · exact ⟨s, hs, hpa⟩
    · exact ⟨t, ht, hpa⟩

theorem SameOff.liveOff (hoff : SameOff s st st') {pa : Nat} :
    st'.LiveOff s pa ↔ st.LiveOff s pa := by
  refine exists_congr fun t => and_congr_right fun hts => ?_
  rw [hoff.reg t hts]

theorem SameOff.mappers (hoff : SameOff s st st') (ht : t ≠ s) :
    st'.mappers t = st.mappers t := by
  simp only [State.mappers, hoff.pte _ t ht]

theorem Inv.slot (h : Inv st) (hs : (st.reg s).used) : SlotOk st s where
  page_ne := h.page_ne s hs
  owned := h.owned s hs
  refCount := h.refCount s hs
  key_off := fun t hts ht heq => hts (h.key_inj t s ht hs heq)
  page_off := fun t hts ht heq => hts (h.page_inj t s ht hs heq)

/-- A field that tells the slots in use apart still does after one slot has changed. -/
theorem SameOff.field_inj {β : Type} (f : Region → β) (hoff : SameOff s st st')
    (hne : (st'.reg s).used → ∀ t, t ≠ s → (st'.reg t).used → f (st'.reg t) ≠ f (st'.reg s))
    (hinj : ∀ t u, (st.reg t).used → (st.reg u).used → f (st.reg t) = f (st.reg u) → t = u) :
    ∀ t u, (st'.reg t).used → (st'.reg u).used → f (st'.reg t) = f (st'.reg u) → t = u := by
  intro t u ht hu hf
  by_cases hts : t = s
  · by_cases hus : u = s
    · rw [hts, hus]
    · rw [hts] at ht hf
      exact absurd hf.symm (hne ht u hus hu)
  · by_cases hus : u = s
    · rw [hus] at hu hf
      exact absurd hf (hne hu t hts ht)
    · rw [hoff.reg t hts] at ht hf
      rw [hoff.reg u hus] at hu hf
      exact hinj t u ht hu hf

/-- The frame rule: a change of one slot has only that slot and the histories to answer
for. -/
theorem Inv.of_slot (h : Inv st) (hoff : SameOff s st st')
    (hok : (st'.reg s).used → SlotOk st' s)
    (hpte : ∀ q pa, st'.pte q s = some pa → (st'.reg s).used ∧ pa = (st'.reg s).page)
    (hlive : ∀ pa, st'.Live pa → st'.obtained.count pa = st'.freed.count pa + 1)
    (hdead : ∀ pa, ¬ st'.Live pa → st'.obtained.count pa = st'.freed.count pa) : Inv st' := by
  constructor
  · intro t ht
    by_cases hts : t = s
    · subst hts
      exact (hok ht).page_ne
    · rw [hoff.reg t hts] at ht ⊢
      exact h.page_ne t ht
  · intro t ht
    by_cases hts : t = s
    · subst hts
      exact (hok ht).owned
    · rw [hoff.reg t hts] at ht ⊢
      rw [hoff.owner t hts ht]
      exact h.owned t ht
  · intro t ht
    by_cases hts : t = s
    · subst hts
      exact (hok ht).refCount
    · rw [hoff.reg t hts] at ht ⊢
      rw [hoff.mappers hts]
      exact h.refCount t ht
  · intro q t pa hq
    by_cases hts : t = s
    · subst hts
      exact hpte q pa hq
    · rw [hoff.pte q t hts] at hq
      rw [hoff.reg t hts]
      exact h.pte_page q t pa hq
  · exact hoff.field_inj Region.key (fun hs => (hok hs).key_off) h.key_inj
  · exact hoff.field_inj Region.page (fun hs => (hok hs).page_off) h.page_inj
  · exact hlive
  · exact hdead
  · intro q
    rw [hoff.table, hoff.state]
    exact h.table q
  · intro q
    rw [hoff.size]
    exact h.size q

/-- Where the histories stay and the slot's page with them, nothing is owed for these. -/
theorem Inv.of_slot_same (h : Inv st) (hoff : SameOff s st st')
    (hok : (st'.reg s).used → SlotOk st' s)
    (hpte : ∀ q pa, st'.pte q s = some pa → (st'.reg s).used ∧ pa = (st'.reg s).page)
    (hpage : ∀ pa, (st'.reg s).used ∧ (st'.reg s).page = pa ↔
      (st.reg s).used ∧ (st.reg s).page = pa)
    (hob : st'.obtained = st.obtained) (hfr : st'.freed = st.freed) : Inv st' := by
  have hlive : ∀ pa, st'.Live pa ↔ st.Live pa := by
    intro pa
    rw [live_iff s, live_iff s, hpage, hoff.liveOff]
  refine h.of_slot hoff hok hpte ?_ ?_
  · simpa [hlive, hob, hfr] using h.once_live
  · simpa [hlive, hob, hfr] using h.once_dead

theorem SameOff.setReg (r : Region) : SameOff s st (st.setReg s r) where
  reg := fun t hts => by rw [reg_setReg, if_neg hts]
  pte := fun _ _ _ => rfl
  owner := fun _ _ _ => rfl
  table := fun _ => Iff.rfl
  state := fun _ => rfl
  size := fun _ => rfl

theorem SameOff.setPte_setReg (hp : (st.proc p).pagetable.isSome) (v : Option Nat)
    (r : Region) : SameOff s st ((st.setPte p s v).setReg s r) where
  reg := fun t hts => by rw [reg_setReg, if_neg hts]; rfl
  pte := fun q t hts => by rw [pte_setReg, pte_setPte hp, if_neg fun hqt => hts hqt.2]
  owner := fun _ _ _ => rfl
  table := fun _ => setPte_table v
  state := fun _ => setPte_state v
  size := fun _ => setPte_sz v

/-- The invariant when one slot, in use before and after, gets a new count and one process
a new entry for that slot. -/
theorem Inv.of_count (h : Inv st) (hs : (st.reg s).used) (v : Option Nat)
    (hv : ∀ pa ∈ v, pa = (st.reg s).page) (hp : (st.proc p).pagetable.isSome) (n : Int)
    (hn : n = (((st.setPte p s v).mappers s).card : Int)) :
    Inv ((st.setPte p s v).setReg s { st.reg s with refCount := n }) := by
  have hoff := SameOff.setPte_setReg (s := s) hp v { st.reg s with refCount := n }
  have hreg : ((st.setPte p s v).setReg s { st.reg s with refCount := n }).reg s =
      { st.reg s with refCount := n } := by rw [reg_setReg, if_pos rfl]
  have hslot := h.slot hs
  refine h.of_slot_same hoff (fun _ => ?_) ?_ (fun pa => by rw [hreg]) rfl rfl
  · constructor
    · rw [hreg]; exact hslot.page_ne
    · rw [hreg]; exact hslot.owned
    · rw [hreg]; exact hn
    · intro t hts
      rw [hreg, hoff.reg t hts]
      exact hslot.key_off t hts
    · intro t hts
      rw [hreg, hoff.reg t hts]
      exact hslot.page_off t hts
  · intro q pa hq
    rw [pte_setReg, pte_setPte hp] at hq
    rw [hreg]
    split at hq
    · exact ⟨hs, hv pa hq⟩
    · exact h.pte_page q s pa hq

/-- The invariant when the last mapping of a slot goes and its page with it. -/
theorem Inv.of_last (h : Inv st) (hpte : st.pte p s = some (st.reg s).page)
    (hs : (st.reg s).used) (hlast : (st.mappers s).erase p = ∅)
    (hst' : st.detach p s = { (st.setPte p s none).setReg s
        { st.reg s with refCount := 0, page := 0, used := false } with
      owner := Function.update st.owner (st.reg s).page .free
      freed := st.freed ++ [(st.reg s).page] }) : Inv (st.detach p s) := by
  have hp : (st.proc p).pagetable.isSome := table_of_pte (by rw [hpte]; rfl)
  have hset := SameOff.setPte_setReg (s := s) hp none
    { st.reg s with refCount := 0, page := 0, used := false }
  have hslot := h.slot hs
  have hoff : SameOff s st (st.detach p s) := by
    rw [hst']
    exact { hset with
      owner := fun t hts ht => Function.update_of_ne (hslot.page_off t hts ht) _ _ }
  have hun : ((st.detach p s).reg s).used = false := by
    rw [hst']
    exact congrArg Region.used ((reg_setReg _).trans (if_pos rfl))
  have hmap : (st.detach p s).mappers s = ∅ := by rw [mappers_detach, if_pos rfl, hlast]
  have hfreed : (st.detach p s).freed = st.freed ++ [(st.reg s).page] := by rw [hst']
  have hob : (st.detach p s).obtained = st.obtained := by rw [hst']; rfl
  have hlive : ∀ pa, (st.detach p s).Live pa ↔ st.LiveOff s pa := by
    intro pa
    rw [live_iff s, hoff.liveOff, hun]
    simp
  have hne : ∀ pa, st.LiveOff s pa → pa ≠ (st.reg s).page := by
    intro pa hl
    obtain ⟨t, hts, ht, hpa⟩ := hl
    rw [← hpa]
    exact hslot.page_off t hts ht
  refine h.of_slot hoff (fun hused => ?_) ?_ ?_ ?_
  · rw [hun] at hused
    cases hused
  · intro q pa hq
    have hmem : q ∈ (st.detach p s).mappers s := mem_mappers.mpr (by rw [hq]; rfl)
    rw [hmap] at hmem
    cases hmem
  · intro pa hpa
    have hl := (hlive pa).mp hpa
    rw [hob, hfreed, List.count_append, List.count_singleton]
    simpa [Ne.symm (hne pa hl)] using h.once_live pa ((live_iff s).mpr (.inr hl))
  · intro pa hpa
    rw [hob, hfreed, List.count_append]
    by_cases heq : pa = (st.reg s).page
    · subst heq
      simpa using h.once_live _ ⟨s, hs, rfl⟩
    · have hdead : ¬ st.Live pa := by
        intro hl
        obtain ⟨_, hpa'⟩ | hl := (live_iff s).mp hl
        · exact heq hpa'.symm
        · exact hpa ((hlive pa).mpr hl)
      rw [List.count_singleton]
      simpa [Ne.symm heq] using h.once_dead pa hdead

theorem inv_detach (h : Inv st) (p : Fin nproc) (s : Fin maxShm) : Inv (st.detach p s) := by
  obtain ⟨_, heq⟩ | ⟨hpte, hs, _, heq⟩ | ⟨hpte, hs, hlast, heq⟩ := detach_cases h p s
  · rw [heq]; exact h
  · rw [heq]
    have htab : (st.proc p).pagetable.isSome := table_of_pte (by rw [hpte]; rfl)
    refine h.of_count hs none (by simp) htab _ ?_
    congr 2
    ext q
    rw [mem_mappers, pte_setPte htab]
    by_cases hq : q = p <;> simp [hq, mem_mappers]
  · exact h.of_last hpte hs hlast heq

theorem freed_detach (h : Inv st) (p : Fin nproc) (s : Fin maxShm) :
    FreedExactly st (st.detach p s) := by
  obtain ⟨_, heq⟩ | ⟨hpte, hs, hne, heq⟩ | ⟨hpte, hs, hlast, heq⟩ := detach_cases h p s
  · exact .of_pte (by rw [heq]) (by rw [heq]; intro _ _; rfl)
  · refine .of_mapped (by rw [heq]; rfl) ?_
    intro pa hpa
    obtain ⟨q, t, hqt⟩ := hpa
    by_cases hts : t = s
    · subst hts
      -- another process keeps the page of this slot mapped
      obtain ⟨q', hq'⟩ := Finset.nonempty_iff_ne_empty.mpr hne
      obtain ⟨hq'p, hq'm⟩ := Finset.mem_erase.mp hq'
      obtain ⟨pb, hpb⟩ := Option.isSome_iff_exists.mp (mem_mappers.mp hq'm)
      have hpa := (h.pte_page q t pa hqt).2
      have hpb' := (h.pte_page q' t pb hpb).2
      refine ⟨q', t, ?_⟩
      rw [pte_detach, if_neg (fun hc => hq'p hc.1), hpb, hpb', hpa]
    · refine ⟨q, t, ?_⟩
      rw [pte_detach, if_neg (fun hc => hts hc.2)]
      exact hqt
  · refine ⟨[(st.reg s).page], by rw [heq], List.nodup_singleton _, ?_⟩
    intro pa
    rw [List.mem_singleton]
    constructor
    · intro hpa
      subst hpa
      refine ⟨⟨p, s, hpte⟩, ?_⟩
      intro hm
      obtain ⟨q, t, hqt⟩ := hm
      rw [pte_detach] at hqt
      split at hqt
      · cases hqt
      · next hc =>
        obtain ⟨ht, hpt⟩ := h.pte_page q t _ hqt
        have hts : t = s := h.page_inj t s ht hs hpt.symm
        subst hts
        have hq : q ∈ (st.mappers t).erase p := by
          refine Finset.mem_erase.mpr ⟨fun hqp => hc ⟨hqp, rfl⟩, mem_mappers.mpr (by rw [hqt]; rfl)⟩
        rw [hlast] at hq
        cases hq
    · intro hpa
      obtain ⟨⟨q, t, hqt⟩, hnot⟩ := hpa
      by_cases hc : q = p ∧ t = s
      · obtain ⟨rfl, rfl⟩ := hc
        rw [hpte] at hqt
        exact (Option.some.inj hqt).symm
      · exact absurd ⟨q, t, by rw [pte_detach, if_neg hc]; exact hqt⟩ hnot

/-! `shm_cleanup` and `freeproc`. -/

/-- What the loop of `shm_cleanup` keeps, from the state it starts in. -/
structure Cleaning (p : Fin nproc) (st st' : State) : Prop where
  inv : Inv st'
  freed : FreedExactly st st'
  shrinks : ∀ pa, st'.Mapped pa → st.Mapped pa
  pte : ∀ q t, q ≠ p → st'.pte q t = st.pte q t
  gone : ∀ t, st'.pte p t = none ∨ st'.pte p t = st.pte p t

theorem Cleaning.refl (h : Inv st) : Cleaning p st st where
  inv := h
  freed := .of_pte rfl fun _ _ => rfl
  shrinks := fun _ h => h
  pte := fun _ _ _ => rfl
  gone := fun _ => .inr rfl

theorem pte_cleanupSlot (h : Inv st) : (State.cleanupSlot p st s).pte q t =
    if q = p ∧ t = s then none else st.pte q t := by
  unfold State.cleanupSlot
  split
  · exact pte_detach
  · next hs =>
    split
    · next hqt =>
      cases hq : st.pte q t with
      | none => rfl
      | some pa => exact absurd (hqt.2 ▸ (h.pte_page q t pa hq).1) hs
    · rfl

theorem Cleaning.slot (h : Cleaning p st st') (s : Fin maxShm) :
    Cleaning p st (State.cleanupSlot p st' s) := by
  have hpte : ∀ q t, (State.cleanupSlot p st' s).pte q t =
      if q = p ∧ t = s then none else st'.pte q t := fun _ _ => pte_cleanupSlot h.inv
  have hshrink : ∀ pa, (State.cleanupSlot p st' s).Mapped pa → st'.Mapped pa := by
    intro pa hm
    obtain ⟨q, t, hqt⟩ := hm
    rw [hpte] at hqt
    split at hqt
    · cases hqt
    · exact ⟨q, t, hqt⟩
  have hstep : Inv (State.cleanupSlot p st' s) ∧
      FreedExactly st' (State.cleanupSlot p st' s) := by
    unfold State.cleanupSlot
    split
    · exact ⟨inv_detach h.inv p s, freed_detach h.inv p s⟩
    · exact ⟨h.inv, .of_pte rfl fun _ _ => rfl⟩
  constructor
  · exact hstep.1
  · exact h.freed.trans hstep.2 h.shrinks hshrink
  · exact fun pa hm => h.shrinks pa (hshrink pa hm)
  · intro q t hq
    rw [hpte, if_neg (fun hc => hq hc.1)]
    exact h.pte q t hq
  · intro t
    rw [hpte]
    split
    · exact .inl rfl
    · exact h.gone t

theorem cleaning_fold (ss : List (Fin maxShm)) (h : Cleaning p st st') :
    Cleaning p st (ss.foldl (State.cleanupSlot p) st') ∧
    ∀ s ∈ ss, (ss.foldl (State.cleanupSlot p) st').pte p s = none := by
  induction ss generalizing st st' with
  | nil => exact ⟨h, by simp⟩
  | cons s ss ih =>
    have hs := h.slot s
    obtain ⟨hfold, hgone⟩ := ih hs
    refine ⟨hfold, ?_⟩
    intro t ht
    cases ht with
    | tail _ ht => exact hgone t ht
    | head =>
      -- no later turn of the loop maps the slot again
      have hrest := (ih (Cleaning.refl hs.inv)).1.gone s
      rw [pte_cleanupSlot h.inv, if_pos ⟨rfl, rfl⟩] at hrest
      cases hrest with
      | inl h0 => exact h0
      | inr h0 => exact h0

theorem cleaning_shmCleanup (h : Inv st) (p : Fin nproc) :
    Cleaning p st (st.shmCleanup p) ∧ ∀ s, (st.shmCleanup p).pte p s = none := by
  have hfold := cleaning_fold (List.finRange maxShm) (Cleaning.refl (p := p) h)
  exact ⟨hfold.1, fun s => hfold.2 s (List.mem_finRange s)⟩

theorem cleanup_id (h : ∀ s, st.pte p s = none) : st.shmCleanup p = st := by
  have hfold : ∀ ss : List (Fin maxShm), ss.foldl (State.cleanupSlot p) st = st := by
    intro ss
    induction ss with
    | nil => rfl
    | cons s ss ih =>
      have hs : State.cleanupSlot p st s = st := by simp [State.cleanupSlot, State.detach, h s]
      rw [List.foldl_cons, hs]
      exact ih
  exact hfold _

/-- Replacing a process without shared mappings by one without shared mappings. -/
theorem inv_setProc (h : Inv st) (q' : Proc)
    (hpte : ∀ s, (q'.pagetable.bind fun pt => pt (shmva s)) = st.pte p s)
    (htab : q'.pagetable = none ↔ q'.state = .unused) (hsz : q'.sz ≤ shmBase) :
    Inv (st.setProc p q') ∧ FreedExactly st (st.setProc p q') := by
  have hview : ∀ q s, (st.setProc p q').pte q s = st.pte q s := by
    intro q s
    rw [pte_setProc]
    split
    · next hq => rw [hq]; exact hpte s
    · rfl
  refine ⟨h.congr rfl hview rfl rfl (fun _ ho => ho) ?_ ?_, .of_pte rfl hview⟩
  · intro q
    unfold State.setProc
    by_cases hq : q = p
    · subst hq; simpa using htab
    · simpa [hq] using h.table q
  · intro q
    unfold State.setProc
    by_cases hq : q = p
    · subst hq; simpa using hsz
    · simpa [hq] using h.size q

theorem inv_freeproc (h : Inv st) (p : Fin nproc) :
    Inv (st.freeproc p) ∧ FreedExactly st (st.freeproc p) := by
  unfold State.freeproc
  split
  · obtain ⟨hc, hnone⟩ := cleaning_shmCleanup h p
    have hset := inv_setProc (p := p) hc.inv ⟨.unused, none, 0⟩ (fun s => (hnone s).symm)
      (by simp) (Nat.zero_le _)
    refine ⟨hset.1, hc.freed.trans hset.2 hc.shrinks ?_⟩
    intro pa hm
    obtain ⟨q, t, hqt⟩ := hm
    rw [pte_setProc] at hqt
    split at hqt
    · cases hqt
    · exact ⟨q, t, hqt⟩
  · next hno =>
    have hnone : (st.proc p).pagetable = none := by simpa using hno
    exact inv_setProc h ⟨.unused, none, 0⟩ (fun s => by simp [State.pte, hnone]) (by simp)
      (Nat.zero_le _)

/-! `shm_create` and `shm_get`. -/

/-- No page table maps a slot that is not in use. -/
theorem pte_unusedReg (h : Inv st) (hs : ¬ (st.reg s).used) (q : Fin nproc) :
    st.pte q s = none := by
  cases hq : st.pte q s with
  | none => rfl
  | some pa => exact absurd (h.pte_page q s pa hq).1 hs

theorem inv_unusedReg (h : Inv st) (hs : ¬ (st.reg s).used) (r : Region) (hr : r.used = false) :
    Inv (st.setReg s r) := by
  have hun : ¬ ((st.setReg s r).reg s).used := by
    rw [reg_setReg, if_pos rfl, hr]
    simp
  refine h.of_slot_same (.setReg r) (fun hused => absurd hused hun) ?_ ?_ rfl rfl
  · intro q pa hq
    rw [pte_setReg, pte_unusedReg h hs] at hq
    cases hq
  · intro pa
    exact iff_of_false (fun hc => hun hc.1) (fun hc => hs hc.1)

/-- A free slot turned into a region of a page fresh out of `kalloc`. -/
theorem inv_newReg (h : Inv st) (hs : ¬ (st.reg s).used)
    (hpa : pa ≠ 0) (hown : st.owner pa = .free)
    (hkey : ∀ t, (st.reg t).used → (st.reg t).key ≠ key) (mem : Nat → Nat → UInt8) :
    Inv { st.setReg s ⟨true, key, pa, 0⟩ with
      owner := Function.update st.owner pa .shm
      mem := mem
      obtained := st.obtained ++ [pa] } := by
  have hfresh : ∀ t, (st.reg t).used → (st.reg t).page ≠ pa := by
    intro t ht heq
    have := h.owned t ht
    rw [heq, hown] at this
    cases this
  generalize hst : ({ st.setReg s ⟨true, key, pa, 0⟩ with
      owner := Function.update st.owner pa .shm
      mem := mem
      obtained := st.obtained ++ [pa] } : State) = st'
  have hnone : ∀ q, st'.pte q s = none := by
    intro q
    rw [← hst]
    exact pte_unusedReg h hs q
  have hown' : st'.owner = Function.update st.owner pa .shm := by rw [← hst]
  have hob : st'.obtained = st.obtained ++ [pa] := by rw [← hst]
  have hfr : st'.freed = st.freed := by rw [← hst]; rfl
  have hnew : st'.reg s = ⟨true, key, pa, 0⟩ := by
    rw [← hst]
    exact (reg_setReg _).trans (if_pos rfl)
  have hoff : SameOff s st st' := by
    rw [← hst]
    exact { SameOff.setReg ⟨true, key, pa, 0⟩ with
      owner := fun t _ ht => Function.update_of_ne (hfresh t ht) _ _ }
  have hlive : ∀ x, st'.Live x ↔ pa = x ∨ st.Live x := by
    intro x
    rw [live_iff s, live_iff s, hoff.liveOff, hnew]
    simp [hs]
  have hdead : ¬ st.Live pa := by
    intro hl
    obtain ⟨t, ht, hx⟩ := hl
    exact hfresh t ht hx
  refine h.of_slot hoff (fun _ => ?_) ?_ ?_ ?_
  · constructor
    · rw [hnew]; exact hpa
    · rw [hnew, hown']; simp
    · rw [hnew]
      simp [State.mappers, hnone]
    · intro t hts
      rw [hnew, hoff.reg t hts]
      exact hkey t
    · intro t hts
      rw [hnew, hoff.reg t hts]
      exact hfresh t
  · intro q x hq
    rw [hnone] at hq
    cases hq
  · intro x hx
    rw [hob, hfr, List.count_append]
    by_cases hxp : pa = x
    · subst hxp
      simpa using h.once_dead pa hdead
    · have hl := ((hlive x).mp hx).resolve_left hxp
      rw [List.count_singleton]
      simpa [hxp] using h.once_live x hl
  · intro x hx
    have hxp : pa ≠ x := fun hxp => hx ((hlive x).mpr (.inl hxp))
    have hl : ¬ st.Live x := fun hl => hx ((hlive x).mpr (.inr hl))
    rw [hob, hfr, List.count_append, List.count_singleton]
    simpa [hxp] using h.once_dead x hl

theorem inv_shmCreate (h : Inv st) (key : Int) {kalloc : Option Nat} (hk : st.KallocOk kalloc) :
    Inv (st.shmCreate key kalloc).2 ∧ FreedExactly st (st.shmCreate key kalloc).2 := by
  have hsame : Inv st ∧ FreedExactly st st := ⟨h, .of_pte rfl fun _ _ => rfl⟩
  unfold State.shmCreate
  cases hkey : st.findSlotByKey key with
  | some s => exact hsame
  | none =>
    simp only
    cases hfree : st.freeSlot with
    | none => exact hsame
    | some s =>
      have hs := freeSlot_some hfree
      simp only
      cases kalloc with
      | none =>
        refine ⟨inv_unusedReg h hs _ rfl, .of_pte rfl fun _ _ => rfl⟩
      | some pa =>
        obtain ⟨hpa0, hown⟩ := hk pa rfl
        exact ⟨inv_newReg h hs hpa0 hown (findSlotByKey_none hkey) _,
          .of_pte rfl fun _ _ => rfl⟩

theorem alive_table (h : Inv st) (hp : (st.proc p).Alive) : (st.proc p).pagetable.isSome := by
  cases hpt : (st.proc p).pagetable with
  | none => exact absurd ((h.table p).mp hpt) hp.1
  | some pt => rfl

theorem inv_shmGet (h : Inv st) (hp : (st.proc p).Alive) (key : Int) (mapOk : Bool) :
    Inv (st.shmGet p key mapOk).2 ∧ FreedExactly st (st.shmGet p key mapOk).2 := by
  have hsame : Inv st ∧ FreedExactly st st := ⟨h, .of_pte rfl fun _ _ => rfl⟩
  unfold State.shmGet
  cases hkey : st.findSlotByKey key with
  | none => exact hsame
  | some s =>
    have hs := (findSlotByKey_some hkey).1
    simp only
    split
    · exact hsame
    · split
      · exact hsame
      · next hno =>
        split
        · have htab := alive_table h hp
          have hpte : ∀ q t, (st.setPte p s (some (st.reg s).page)).pte q t =
              if q = p ∧ t = s then some (st.reg s).page else st.pte q t := fun _ _ => pte_setPte htab
          refine ⟨h.of_count hs _ (by simp) htab _ ?_, .of_mapped rfl ?_⟩
          · have hins : (st.setPte p s (some (st.reg s).page)).mappers s =
                insert p (st.mappers s) := by
              ext q
              rw [mem_mappers, hpte]
              by_cases hq : q = p <;> simp [hq, mem_mappers]
            have hnot : p ∉ st.mappers s := by
              rw [mem_mappers]; exact hno
            rw [hins, Finset.card_insert_of_notMem hnot, h.refCount s hs]
            simp
          · intro pa hm
            obtain ⟨q, t, hqt⟩ := hm
            refine ⟨q, t, ?_⟩
            rw [pte_setReg, hpte, if_neg ?_]
            · exact hqt
            · intro hc
              rw [hc.1, hc.2] at hqt
              exact hno (by rw [hqt]; rfl)
        · exact hsame

/-! `kfork`. -/

theorem procPagetable_window (tramp frame : Nat) (s : Fin maxShm) :
    State.procPagetable tramp frame (shmva s) = none := by
  have hs : s.val < 64 := s.isLt
  have h1 : shmva s ≠ trampoline := by
    simp only [shmva, shmBase, trampoline, pgsize]; omega
  have h2 : shmva s ≠ trapframe := by
    simp only [shmva, shmBase, trapframe, trampoline, pgsize]; omega
  simp [State.procPagetable, h1, h2]

theorem setProc_setProc (q' q'' : Proc) :
    (st.setProc p q').setProc p q'' = st.setProc p q'' := by
  simp [State.setProc]

@[simp] theorem setProc_proc_self (q' : Proc) : (st.setProc p q').proc p = q' := by
  simp [State.setProc]

/-- `allocproc` leaves the table as it was but for one slot that was unused. -/
theorem allocproc_cases (h : Inv st) (frame tramp : Option Nat) :
    (st.allocproc frame tramp = (none, st)) ∨
    ∃ np, (st.proc np).state = .unused ∧
      ((st.allocproc frame tramp = (none, st.setProc np ⟨.unused, none, 0⟩)) ∨
        ∃ f t, st.allocproc frame tramp = (some np, st.setProc np
          ⟨.used, some (State.procPagetable t f), (st.proc np).sz⟩)) := by
  unfold State.allocproc
  cases hfind : (List.finRange nproc).find? fun p => (st.proc p).state == .unused with
  | none => exact .inl rfl
  | some np =>
    have hun : (st.proc np).state = .unused := by simpa using List.find?_some hfind
    have htab : (st.proc np).pagetable = none := (h.table np).mpr hun
    refine .inr ⟨np, hun, ?_⟩
    have hfree : (st.setProc np { st.proc np with state := .used }).freeproc np =
        st.setProc np ⟨.unused, none, 0⟩ := by
      simp [State.freeproc, htab, setProc_setProc]
    cases frame with
    | none => exact .inl (by simp [hfree])
    | some f =>
      cases tramp with
      | none => exact .inl (by simp [hfree])
      | some t => exact .inr ⟨f, t, by simp [setProc_setProc]⟩

/-- The copy of `uvmcopy` stays below the shared window. -/
theorem uvmcopy_window {old new : PageTable} {sz : Nat} (hsz : sz ≤ shmBase) (fresh : Nat → Nat)
    (s : Fin maxShm) : State.uvmcopy old new sz fresh (shmva s) = new (shmva s) := by
  unfold State.uvmcopy
  rw [if_neg]
  unfold shmva
  omega

/-- `kfork` changes one process that was unused, and maps nothing in its window. -/
theorem kfork_cases (h : Inv st) (hp : (st.proc p).Alive) (frame tramp : Option Nat)
    (copy : Option (Nat → Nat)) : st.kfork p frame tramp copy = st ∨
    ∃ np q', (st.proc np).state = .unused ∧ st.kfork p frame tramp copy = st.setProc np q' ∧
      (∀ s, (q'.pagetable.bind fun pt => pt (shmva s)) = none) ∧
      (q'.pagetable = none ↔ q'.state = .unused) ∧ q'.sz ≤ shmBase := by
  unfold State.kfork
  obtain hnone | ⟨np, hun, hcase⟩ := allocproc_cases h frame tramp
  · rw [hnone]
    exact .inl rfl
  · have hne : p ≠ np := fun hpn => hp.1 (hpn ▸ hun)
    right
    obtain hfail | ⟨f, t, hok⟩ := hcase
    · rw [hfail]
      exact ⟨np, ⟨.unused, none, 0⟩, hun, rfl, by simp, by simp, Nat.zero_le _⟩
    · rw [hok]
      simp only
      cases copy with
      | none =>
        have hclean : (st.setProc np ⟨.used, some (State.procPagetable t f), (st.proc np).sz⟩).freeproc
            np = st.setProc np ⟨.unused, none, 0⟩ := by
          unfold State.freeproc
          rw [if_pos (by simp), cleanup_id, setProc_setProc]
          intro s
          simp [procPagetable_window]
        exact ⟨np, ⟨.unused, none, 0⟩, hun, hclean, by simp, by simp, Nat.zero_le _⟩
      | some fresh =>
        obtain ⟨old, hold⟩ := Option.isSome_iff_exists.mp (alive_table h hp)
        have hproc : (st.setProc np ⟨.used, some (State.procPagetable t f), (st.proc np).sz⟩).proc p =
            st.proc p := by simp [State.setProc, hne]
        simp only
        rw [hproc, setProc_setProc, setProc_proc_self, hold]
        refine ⟨np, _, hun, rfl, ?_, by simp, h.size p⟩
        intro s
        simp [uvmcopy_window (h.size p), procPagetable_window]

theorem pte_unused (h : Inv st) (hun : (st.proc p).state = .unused) (s : Fin maxShm) :
    st.pte p s = none := by
  simp [State.pte, (h.table p).mpr hun]

theorem inv_kfork (h : Inv st) (hp : (st.proc p).Alive) (frame tramp : Option Nat)
    (copy : Option (Nat → Nat)) :
    Inv (st.kfork p frame tramp copy) ∧ FreedExactly st (st.kfork p frame tramp copy) := by
  cases kfork_cases h hp frame tramp copy with
  | inl hsame =>
    rw [hsame]
    exact ⟨h, .of_pte rfl fun _ _ => rfl⟩
  | inr hnew =>
    obtain ⟨np, q', hun, heq, hwin, htab, hsz⟩ := hnew
    rw [heq]
    exact inv_setProc h q' (fun s => (hwin s).trans (pte_unused h hun s).symm) htab hsz

/-! Steps and runs. -/

theorem inv_step {a : Act} (h : Inv st) (hstep : Step st a st') :
    Inv st' ∧ FreedExactly st st' := by
  cases hstep with
  | create _ hk => exact inv_shmCreate h _ hk
  | get hp => exact inv_shmGet h hp _ _
  | @close p key hp =>
    unfold State.shmClose
    cases st.findSlotByKey key with
    | none => exact ⟨h, .of_pte rfl fun _ _ => rfl⟩
    | some s => exact ⟨inv_detach h p s, freed_detach h p s⟩
  | fork hp => exact inv_kfork h hp _ _ _
  | @exit p hp =>
    obtain ⟨pt, hpt⟩ := Option.isSome_iff_exists.mp (alive_table h hp)
    refine inv_setProc h _ (fun _ => rfl) ?_ (h.size _)
    simp [hpt]
  | reap _ => exact inv_freeproc h _
  | @heap p user sz hp hsz =>
    refine inv_setProc h _ ?_ ?_ hsz
    · intro s
      have hva : ¬ shmva s < shmBase := by unfold shmva; omega
      simp [State.pte, Option.bind_map, hva]
    · simpa using h.table p
  | @kalloc pa hfree =>
    refine ⟨h.congr rfl (fun _ _ => rfl) rfl rfl ?_ h.table h.size, .of_pte rfl fun _ _ => rfl⟩
    intro x hx
    have hne : x ≠ pa := by
      intro heq; rw [heq, hfree] at hx; cases hx
    simpa [hne] using hx
  | @kfree pa hother =>
    refine ⟨h.congr rfl (fun _ _ => rfl) rfl rfl ?_ h.table h.size, .of_pte rfl fun _ _ => rfl⟩
    intro x hx
    have hne : x ≠ pa := by
      intro heq; rw [heq, hother] at hx; cases hx
    simpa [hne] using hx
  | store _ _ =>
    exact ⟨h.congr rfl (fun _ _ => rfl) rfl rfl (fun _ ho => ho) h.table h.size,
      .of_pte rfl fun _ _ => rfl⟩

theorem pte_init (frame tramp : Nat) (owner : Nat → Owner) (mem : Nat → Nat → UInt8)
    (p : Fin nproc) (s : Fin maxShm) : (State.init frame tramp owner mem).pte p s = none := by
  unfold State.init State.pte
  by_cases hp : p = 0
  · simp [hp, procPagetable_window]
  · simp [hp]

theorem inv_init (frame tramp : Nat) (owner : Nat → Owner) (mem : Nat → Nat → UInt8) :
    Inv (State.init frame tramp owner mem) := by
  constructor
  · intro s hs; cases hs
  · intro s hs; cases hs
  · intro s hs; cases hs
  · intro p s pa hp
    rw [pte_init] at hp
    cases hp
  · intro s t hs; cases hs
  · intro s t hs; cases hs
  · intro pa hl
    obtain ⟨s, hs, _⟩ := hl
    cases hs
  · intro pa _; rfl
  · intro p
    by_cases hp : p = 0 <;> simp [State.init, hp]
  · intro p
    by_cases hp : p = 0 <;> simp [State.init, hp]

/-- Process `p` sees the region of `key` as the page `pa` at the address `va`. -/
def State.Attached (st : State) (p : Fin nproc) (key : Int) (va pa : Nat) : Prop :=
  ∃ s, (st.reg s).used ∧ (st.reg s).key = key ∧ va = shmva s ∧ st.pte p s = some pa

/-- A successful `shm_get` attaches the caller at the address it returns. -/
theorem attached_shmGet (h : Inv st) (hp : (st.proc p).Alive) {mapOk : Bool}
    (hret : (st.shmGet p key mapOk).1 ≠ 0) :
    ∃ pa, (st.shmGet p key mapOk).2.Attached p key (st.shmGet p key mapOk).1 pa := by
  unfold State.shmGet at hret ⊢
  cases hkey : st.findSlotByKey key with
  | none => simp [hkey] at hret
  | some s =>
    obtain ⟨hs, hk⟩ := findSlotByKey_some hkey
    simp only [hkey] at hret ⊢
    split at hret
    · exact absurd rfl hret
    · next hpage =>
      rw [if_neg hpage]
      split at hret
      · next hsome =>
        obtain ⟨pa, hpa⟩ := Option.isSome_iff_exists.mp hsome
        rw [if_pos hsome]
        exact ⟨pa, s, hs, hk, rfl, hpa⟩
      · next hno =>
        rw [if_neg hno]
        split at hret
        · next hok =>
          rw [if_pos hok]
          refine ⟨(st.reg s).page, s, ?_, ?_, rfl, ?_⟩
          · simpa [reg_setReg] using hs
          · simpa [reg_setReg] using hk
          · simp [pte_setPte (alive_table h hp)]
        · exact absurd rfl hret

theorem reg_detach_ne (hts : t ≠ s) : (st.detach p t).reg s = st.reg s := by
  unfold State.detach
  split
  · simp only
    split
    · exact (reg_setReg _).trans (if_neg hts.symm)
    · exact (reg_setReg _).trans (if_neg hts.symm)
  · rfl

/-- After `shm_close` the caller is not attached to the region. -/
theorem not_attached_shmClose (h : Inv st) (p : Fin nproc) (key : Int) (va pa : Nat) :
    ¬ (st.shmClose p key).2.Attached p key va pa := by
  rintro ⟨t, hused, hkey, -, hpte⟩
  unfold State.shmClose at hused hkey hpte
  cases hfind : st.findSlotByKey key with
  | none =>
    rw [hfind] at hused hkey
    exact findSlotByKey_none hfind t hused hkey
  | some s =>
    rw [hfind] at hused hkey hpte
    simp only at hused hkey hpte
    rw [pte_detach] at hpte
    by_cases hts : t = s
    · rw [if_pos ⟨rfl, hts⟩] at hpte
      cases hpte
    · obtain ⟨hs, hks⟩ := findSlotByKey_some hfind
      rw [reg_detach_ne (Ne.symm hts)] at hused hkey
      exact hts (h.key_inj t s hused hs (hkey.trans hks.symm))

/-- The reference invariant of the shared pages, in every state of every run: counts,
mappings, keys and pages agree, every page is freed once and with its last mapping, and
attached processes share exactly the regions of their keys; `shm_get` attaches its caller and
`shm_close` detaches it. -/
theorem shm_reference_invariant (frame tramp : Nat) (owner : Nat → Owner)
    (mem : Nat → Nat → UInt8) {tr : List Act} {st : State}
    (hr : Run Step (State.init frame tramp owner mem) tr st) :
    (∀ s, (st.reg s).used → (st.reg s).page ≠ 0 ∧ (st.reg s).refCount = (st.mappers s).card) ∧
    (∀ p s pa, st.pte p s = some pa → (st.reg s).used ∧ pa = (st.reg s).page) ∧
    (∀ s t, (st.reg s).used → (st.reg t).used → s ≠ t →
      (st.reg s).key ≠ (st.reg t).key ∧ (st.reg s).page ≠ (st.reg t).page) ∧
    (∀ pa, st.freed.count pa ≤ st.obtained.count pa ∧
      st.obtained.count pa ≤ st.freed.count pa + 1) ∧
    (∀ a st', Step st a st' → FreedExactly st st') ∧
    (∀ p q key va va' pa pb, st.Attached p key va pa → st.Attached q key va' pb →
      va = va' ∧ pa = pb) ∧
    (∀ p q key key' va va' pa pb, st.Attached p key va pa → st.Attached q key' va' pb →
      key ≠ key' → pa ≠ pb) ∧
    (∀ pa, st.Mapped pa → st.owner pa = .shm) ∧
    (∀ p key mapOk, (st.proc p).Alive → (st.shmGet p key mapOk).1 ≠ 0 →
      ∃ pa, (st.shmGet p key mapOk).2.Attached p key (st.shmGet p key mapOk).1 pa) ∧
    ∀ p key va pa, ¬ (st.shmClose p key).2.Attached p key va pa := by
  have h : Inv st := hr.invariant (inv_init frame tramp owner mem)
    fun _ _ _ hp hs => (inv_step hp hs).1
  refine ⟨fun s hs => ⟨h.page_ne s hs, h.refCount s hs⟩, h.pte_page, ?_, ?_,
    fun _ _ hs => (inv_step h hs).2, ?_, ?_, ?_, fun _ _ _ hp hret => attached_shmGet h hp hret,
    not_attached_shmClose h⟩
  · intro s t hs ht hst
    exact ⟨fun hk => hst (h.key_inj s t hs ht hk), fun hp => hst (h.page_inj s t hs ht hp)⟩
  · intro pa
    by_cases hl : st.Live pa
    · have := h.once_live pa hl; omega
    · have := h.once_dead pa hl; omega
  · intro p q key va va' pa pb hp hq
    obtain ⟨s, hs, hk, hva, hps⟩ := hp
    obtain ⟨t, ht, hk', hva', hqt⟩ := hq
    have hst : s = t := h.key_inj s t hs ht (hk.trans hk'.symm)
    subst hst
    exact ⟨hva.trans hva'.symm,
      (h.pte_page p s pa hps).2.trans (h.pte_page q s pb hqt).2.symm⟩
  · intro p q key key' va va' pa pb hp hq hkk hpp
    obtain ⟨s, hs, hk, hva, hps⟩ := hp
    obtain ⟨t, ht, hk', hva', hqt⟩ := hq
    have h1 := (h.pte_page p s pa hps).2
    have h2 := (h.pte_page q t pb hqt).2
    have hst : s = t := h.page_inj s t hs ht (by rw [← h1, ← h2, hpp])
    subst hst
    exact hkk (hk.symm.trans hk')
  · intro pa hm
    obtain ⟨p, s, hps⟩ := hm
    obtain ⟨hs, rfl⟩ := h.pte_page p s pa hps
    exact h.owned s hs

/-- After `shminit` and `userinit`, with all of the memory free. -/
def State.booted : State := .init 1 2 (fun _ => .free) fun _ _ => 0

/-- `init` creates the region of key 5 on page 100 and attaches to it. -/
theorem shm_reference_invariant_first_region :
    ∃ st, Run Step (State.init 1 2 (fun _ => .free) fun _ _ => 0)
        [.create 0 5 (some 100), .get 0 5 true] st ∧
      (st.reg 0).page ≠ 0 ∧ (st.reg 0).refCount = (st.mappers 0).card := by
  have hcreate : Run Step (State.init 1 2 (fun _ => .free) fun _ _ => 0)
      [.create 0 5 (some 100)] _ :=
    Run.single (.create (by decide) (by intro pa hpa; cases hpa; exact ⟨by decide, rfl⟩))
  have hget : Run Step _ [.create 0 5 (some 100), .get 0 5 true] _ :=
    hcreate.snoc (.get (by decide))
  have h := shm_reference_invariant 1 2 (fun _ => .free) (fun _ _ => 0) hget
  exact ⟨_, hget, h.1 0 rfl⟩

end Xv6Labs.Shm
