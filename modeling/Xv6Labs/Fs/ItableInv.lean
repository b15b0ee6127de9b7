import Xv6Labs.Fs.Itable

/-! What the places in the code of the inode table say about its entries, its locks and the disk,
and that every step keeps to it. -/
namespace Xv6Labs.Itable
open Fs (Dinode)

/-- The places with `itable.lock` held. -/
def Pc.tableLock : Pc → Bool
  | .igetScan .. | .idupLock _ | .tableDone | .iputTest _ | .iputLast _ | .iputTaken _
  | .iputDrop .. | .panic .noInodes => true
  | _ => false

/-- The entry that the process has a pointer to. -/
def Pc.uses : Pc → Option Nat
  | .idup i | .idupLock i | .ilock i | .ilockRef i | .ilockTaken i | .ilockRead i | .ilockValid i
  | .iunlock i | .changed i => some i
  | _ => none

/-- The entry whose pointer the process gives up. -/
def Pc.puts : Pc → Option Nat
  | .iput i | .iputTest i | .iputLast i | .iputTaken i | .iputOpen i | .iputEmpty i | .iputTrunc i
  | .iputType i | .iputUpdate i | .iputValid i | .iputAway i | .iputDrop i _ => some i
  | _ => none

/-- The entry whose sleep-lock the process has. -/
def Pc.has : Pc → Option Nat
  | .ilockTaken i | .ilockRead i | .ilockValid i | .iunlock i | .changed i | .iputTaken i
  | .iputOpen i | .iputEmpty i | .iputTrunc i | .iputType i | .iputUpdate i | .iputValid i => some i
  | _ => none

/-- The entry whose sleep-lock the process has not. -/
def Pc.lacks : Pc → Option Nat
  | .ilock i | .ilockRef i | .iput i | .iputTest i | .iputLast i | .iputAway i | .iputDrop i _ =>
    some i
  | _ => none

/-- `iput` is about to free the inode on the disk. -/
def Pc.freeing : Pc → Option Nat
  | .iputLast i | .iputTaken i | .iputOpen i | .iputEmpty i | .iputTrunc i | .iputType i => some i
  | _ => none

/-- `iput` has freed the inode on the disk. -/
def Pc.freed : Pc → Option Nat
  | .iputUpdate i | .iputValid i | .iputAway i | .iputDrop i true => some i
  | _ => none

/-- `iput` has freed the inode and marked the entry so. -/
def Pc.away : Pc → Option Nat
  | .iputValid i | .iputAway i | .iputDrop i true => some i
  | _ => none

/-- The sleep-lock is held, but the entry may be empty. -/
def Pc.loading : Pc → Option Nat
  | .ilockTaken i | .ilockRead i | .iputValid i => some i
  | _ => none

/-- The type in the entry is already 0. -/
def Pc.gone : Pc → Option Nat
  | .iputType i | .iputUpdate i => some i
  | _ => none

/-- The entry may differ from the disk. -/
def Pc.stale : Pc → Option Nat
  | .changed i | .iputEmpty i | .iputType i | .iputUpdate i => some i
  | _ => none

/-- The inode that `iget` is called for. -/
def Pc.getting : Pc → Option (Nat × Why)
  | .iget inum w | .igetScan inum w _ _ => some (inum, w)
  | _ => none

structure Inv (n : Nat) (s : State) : Prop where
  table : ∀ p, s.tlock = some p ↔ (s.pc p).tableLock = true
  ref : ∀ i, (s.slot i).ref = (s.ptr i).card
  lt : ∀ i, 0 < (s.slot i).ref → i < n
  uniq : ∀ i j, 0 < (s.slot i).ref → 0 < (s.slot j).ref → (s.slot i).inum = (s.slot j).inum → i = j
  uses : ∀ p i, (s.pc p).uses = some i → s.Uses p i
  puts : ∀ p i, (s.pc p).puts = some i → {p} ∈ s.ptr i
  held : ∀ p i, s.slock i = some p → s.Uses p i
  has : ∀ p i, (s.pc p).has = some i → s.slock i = some p
  lacks : ∀ p i, (s.pc p).lacks = some i → s.slock i ≠ some p
  last : ∀ p i, (s.pc p).freeing = some i →
    s.ptr i = {{p}} ∧ (s.slot i).valid = true ∧ (s.slot i).copy.nlink = 0
  valid : ∀ p i, s.slock i = some p → (s.pc p).loading ≠ some i → (s.slot i).valid = true
  read : ∀ p i, s.pc p = .ilockRead i → (s.slot i).copy = s.disk (s.slot i).inum
  type : ∀ i, 0 < (s.slot i).ref → (s.slot i).valid = true →
    (s.slot i).copy.type ≠ 0 ∨ ∃ p, (s.pc p).gone = some i
  disk : ∀ i, 0 < (s.slot i).ref →
    (s.disk (s.slot i).inum).type ≠ 0 ∨ ∃ p, (s.pc p).freed = some i ∧ s.ptr i = {{p}}
  away : ∀ p i, (s.pc p).away = some i → (s.disk (s.slot i).inum).type = 0 →
    (s.slot i).valid = false
  coherent : ∀ i, 0 < (s.slot i).ref → (s.slot i).valid = true →
    (s.slot i).copy = s.disk (s.slot i).inum ∨ ∃ p, (s.pc p).stale = some i
  link : ∀ i, 0 < (s.slot i).ref → (s.slot i).valid = true →
    (s.names (s.slot i).inum : Int) ≤ (s.slot i).copy.nlink.toInt
  names : ∀ inum, (s.names inum : Int) ≤ (s.disk inum).nlink.toInt
  alloc : ∀ inum, 0 < s.names inum → (s.disk inum).type ≠ 0
  named : ∀ p inum, (s.pc p).getting = some (inum, .named) → 0 < s.names inum
  dot : ∀ p inum, (s.pc p).getting = some (inum, .dot) →
    ∃ i, s.slock i = some p ∧ (s.slot i).inum = inum
  fresh : ∀ p inum, (s.pc p).getting = some (inum, .fresh) →
    (s.disk inum).type ≠ 0 ∧ s.names inum = 0 ∧ ∀ i, 0 < (s.slot i).ref → (s.slot i).inum = inum →
      ∃ q, (s.pc q).freed = some i ∧ s.ptr i = {{q}}
  typed : ∀ p type inum, s.pc p = .ialloc type inum → type ≠ 0
  once : ∀ p q inum, (s.pc p).getting = some (inum, .fresh) →
    (s.pc q).getting = some (inum, .fresh) → p = q
  scan : ∀ p inum w i e, s.pc p = .igetScan inum w i e →
    (∀ j, j < i → 0 < (s.slot j).ref → (s.slot j).inum ≠ inum) ∧
    ∀ j, e = some j → j < n ∧ (s.slot j).ref = 0
  calm : ∀ p x, s.pc p = .panic x → x = .noInodes

def Eff.next (c : Pc) : Eff → Pc
  | .goto c | .lock c | .unlock c | .take _ c | .leave _ c | .add _ c | .fill _ _ c | .del _ c
  | .put _ _ _ c | .write _ _ c => c
  | .name .. | .share .. => c

/-- What a process has when it does something. -/
def Eff.Ok (n : Nat) (s : State) (p : Nat) : Eff → Prop
  | .goto c => c.tableLock = (s.pc p).tableLock
  | .lock c => (s.pc p).tableLock = false ∧ c.tableLock = true
  | .unlock c => (s.pc p).tableLock = true ∧ c.tableLock = false
  | .take i c => c.tableLock = (s.pc p).tableLock ∧ s.Uses p i
  | .leave i c => c.tableLock = (s.pc p).tableLock ∧ s.slock i = some p
  | .add i c => (s.pc p).tableLock = true ∧ c = .tableDone ∧ 0 < (s.slot i).ref ∧
      (s.Uses p i ∨ ∃ w, (s.pc p).getting = some ((s.slot i).inum, w))
  | .fill i inum c => (s.pc p).tableLock = true ∧ c = .tableDone ∧ (s.slot i).ref = 0 ∧ i < n ∧
      (∀ j, 0 < (s.slot j).ref → (s.slot j).inum ≠ inum) ∧
      ∃ w, (s.pc p).getting = some (inum, w)
  | .del i c => (s.pc p).tableLock = true ∧ c = .tableDone ∧ {p} ∈ s.ptr i ∧ s.slock i ≠ some p
  | .put i _ _ c => c.tableLock = (s.pc p).tableLock ∧ s.slock i = some p
  | .write inum d c => c.tableLock = (s.pc p).tableLock ∧
      ((∃ i, s.slock i = some p ∧ (s.slot i).inum = inum ∧ d = (s.slot i).copy) ∨
        (s.disk inum).type = 0 ∧ d.type ≠ 0 ∧ d.nlink = 0 ∧ c = .iget inum .fresh)
  | .name inum k => s.pc p = .out ∧ (k ≤ s.names inum ∧ (s.Looked inum → 0 < k) ∨
      s.names inum ≤ k ∧ ∃ i, s.slock i = some p ∧ (s.slot i).inum = inum ∧
        (k : Int) ≤ (s.slot i).copy.nlink.toInt)
  | .share i U V => s.pc p = .out ∧ U ∈ s.ptr i ∧ p ∈ U ∧ (∀ q, q ≠ p → q ∈ U → q ∈ V) ∧
      (s.slock i = some p → p ∈ V)

section
variable {n m : Nat} {s : State} {p q i j inum : Nat} {c : Pc} {e : Eff}

/-! The state after an effect. -/

theorem pc_exec_self (s : State) (p : Nat) (e : Eff) :
    (s.exec p e).pc p = e.next (s.pc p) := by
  cases e with
  | name | share => rfl
  | _ => exact Function.update_self ..

theorem pc_exec_of_ne (s : State) (e : Eff) (hq : q ≠ p) : (s.exec p e).pc q = s.pc q := by
  cases e with
  | name | share => rfl
  | _ => exact Function.update_of_ne hq _ _

/-- What the effect `e` of process `p` does to entry `i` and to the pointers to it. -/
inductive Change (s : State) (p : Nat) (e : Eff) (i : Nat) (x : Slot) (m : Multiset (Finset Nat)) :
    Prop
  | same (hx : x = s.slot i) (hm : m = s.ptr i)
  | add (c : Pc) (he : e = .add i c) (hx : x = { s.slot i with ref := (s.slot i).ref + 1 })
      (hm : m = {p} ::ₘ s.ptr i)
  | fill (inum : Nat) (c : Pc) (he : e = .fill i inum c)
      (hx : x = { s.slot i with inum := inum, ref := 1, valid := false }) (hm : m = {{p}})
  | del (c : Pc) (he : e = .del i c) (hx : x = { s.slot i with ref := (s.slot i).ref - 1 })
      (hm : m = (s.ptr i).erase {p})
  | put (valid : Bool) (copy : Dinode) (c : Pc) (he : e = .put i valid copy c)
      (hx : x = { s.slot i with valid := valid, copy := copy }) (hm : m = s.ptr i)
  | share (U V : Finset Nat) (he : e = .share i U V) (hx : x = s.slot i)
      (hm : m = V ::ₘ (s.ptr i).erase U)

theorem change_exec (s : State) (p : Nat) (e : Eff) (i : Nat) :
    Change s p e i ((s.exec p e).slot i) ((s.exec p e).ptr i) := by
  cases e with
  | add j c =>
    by_cases hi : i = j
    · subst hi
      exact .add c rfl (Function.update_self ..) (Function.update_self ..)
    · exact .same (Function.update_of_ne hi _ _) (Function.update_of_ne hi _ _)
  | fill j inum c =>
    by_cases hi : i = j
    · subst hi
      exact .fill inum c rfl (Function.update_self ..) (Function.update_self ..)
    · exact .same (Function.update_of_ne hi _ _) (Function.update_of_ne hi _ _)
  | del j c =>
    by_cases hi : i = j
    · subst hi
      exact .del c rfl (Function.update_self ..) (Function.update_self ..)
    · exact .same (Function.update_of_ne hi _ _) (Function.update_of_ne hi _ _)
  | put j valid copy c =>
    by_cases hi : i = j
    · subst hi
      exact .put valid copy c rfl (Function.update_self ..) rfl
    · exact .same (Function.update_of_ne hi _ _) rfl
  | share j U V =>
    by_cases hi : i = j
    · subst hi
      exact .share U V rfl rfl (Function.update_self ..)
    · exact .same rfl (Function.update_of_ne hi _ _)
  | _ => exact .same rfl rfl

theorem code_ok (h : Inv n s) (hc : Code n m s p (s.pc p) e) : e.Ok n s p := by
  have huses := h.uses p
  have hputs := h.puts p
  have hhas := h.has p
  have hlacks := h.lacks p
  have hscan := h.scan p
  have htyped := h.typed p
  unfold Eff.Ok
  generalize s.pc p = c at hc huses hputs hhas hlacks hscan htyped
  cases hc with
  | change i d hl => exact ⟨rfl, hl⟩
  | update i => exact ⟨rfl, .inl ⟨i, hhas i rfl, rfl, rfl⟩⟩
  | link i hl hn => exact ⟨rfl, .inr ⟨Nat.le_succ _, i, hl, rfl, by exact_mod_cast hn⟩⟩
  | unlink inum hmore => exact ⟨rfl, .inl ⟨Nat.sub_le _ _, fun hl => Nat.sub_pos_of_lt (hmore hl)⟩⟩
  | share i U q hU hp =>
    exact ⟨rfl, hU, hp, fun q' _ hq => Finset.mem_insert_of_mem hq,
      fun _ => Finset.mem_insert_of_mem hp⟩
  | close i U hU hp hmore hno =>
    exact ⟨rfl, hU, hp, fun q' hne hq => Finset.mem_erase.mpr ⟨hne, hq⟩, fun hl => absurd hl hno⟩
  | igetHit inum w i e hi hr hm => exact ⟨rfl, rfl, hr, .inr ⟨w, by rw [hm]; rfl⟩⟩
  | igetRecycle inum w i j hi =>
    obtain ⟨hno, hempty⟩ := hscan inum w i (some j) rfl
    refine ⟨rfl, rfl, (hempty j rfl).2, (hempty j rfl).1, ?_, w, rfl⟩
    intro k hk
    exact hno k (lt_of_lt_of_le (h.lt k hk) hi) hk
  | idupRef i =>
    obtain ⟨U, hU, hp⟩ := huses i rfl
    refine ⟨rfl, rfl, ?_, .inl ⟨U, hU, hp⟩⟩
    rw [h.ref i]
    exact Multiset.card_pos_iff_exists_mem.mpr ⟨U, hU⟩
  | ilockTake i => exact ⟨rfl, huses i rfl⟩
  | iputTake i => exact ⟨rfl, {p}, hputs i rfl, Finset.mem_singleton_self p⟩
  | ilockRead i | ilockValid i | iputEmpty i | iputType i | iputValid i => exact ⟨rfl, hhas i rfl⟩
  | iputTrunc i | iputUpdate i => exact ⟨rfl, .inl ⟨i, hhas i rfl, rfl, rfl⟩⟩
  | iunlock i hn | iputAway i => exact ⟨rfl, hhas i rfl⟩
  | iputDrop i b => exact ⟨rfl, rfl, hputs i rfl, hlacks i rfl⟩
  | iallocFound type inum hi ht => exact ⟨rfl, .inr ⟨ht, htyped type inum rfl, rfl, rfl⟩⟩
  | igetLock | idupLock | iputLock | iputAgain | tableDone | iputOpen => exact ⟨rfl, rfl⟩
  | _ => rfl

theorem Inv.ref_pos (h : Inv n s) (hu : s.Uses p i) : 0 < (s.slot i).ref := by
  obtain ⟨U, hU, -⟩ := hu
  rw [h.ref i]
  exact Multiset.card_pos_iff_exists_mem.mpr ⟨U, hU⟩

theorem uses_of_single (hp : {p} ∈ s.ptr i) : s.Uses p i := ⟨{p}, hp, Finset.mem_singleton_self p⟩

theorem Inv.uses_of_puts (h : Inv n s) (hp : (s.pc p).puts = some i) : s.Uses p i :=
  uses_of_single (h.puts p i hp)

/-- The only user of the only pointer. -/
theorem uses_alone (ha : s.ptr i = {{q}}) (hu : s.Uses p i) : p = q := by
  obtain ⟨U, hU, hp⟩ := hu
  rw [ha, Multiset.mem_singleton] at hU
  rw [hU] at hp
  exact Finset.mem_singleton.mp hp

/-! What a step of process `p` leaves to the others. -/

section Frame
variable (h : Inv n s) (ho : e.Ok n s p)
include h ho

/-- Nobody else takes the use of a pointer away. -/
theorem uses_other (hq : q ≠ p) (hu : s.Uses q i) : (s.exec p e).Uses q i := by
  obtain ⟨U, hU, hqU⟩ := hu
  have hch := change_exec s p e i
  unfold State.Uses
  generalize (s.exec p e).ptr i = m at *
  cases hch with
  | same hx hm | put _ _ _ he hx hm =>
    rw [hm]
    exact ⟨U, hU, hqU⟩
  | add c he hx hm =>
    rw [hm]
    exact ⟨U, Multiset.mem_cons_of_mem hU, hqU⟩
  | fill inum c he =>
    subst he
    have hpos := h.ref_pos ⟨U, hU, hqU⟩
    rw [ho.2.2.1] at hpos
    cases hpos
  | del c he hx hm =>
    rw [hm]
    refine ⟨U, (Multiset.mem_erase_of_ne ?_).mpr hU, hqU⟩
    rintro rfl
    exact hq (Finset.mem_singleton.mp hqU)
  | share W V he hx hm =>
    subst he
    rw [hm]
    by_cases hUW : U = W
    · subst hUW
      exact ⟨V, Multiset.mem_cons_self V _, ho.2.2.2.1 q hq hqU⟩
    · exact ⟨U, Multiset.mem_cons_of_mem ((Multiset.mem_erase_of_ne hUW).mpr hU), hqU⟩

theorem single_other (hq : q ≠ p) (hs : {q} ∈ s.ptr i) : {q} ∈ (s.exec p e).ptr i := by
  have hch := change_exec s p e i
  generalize (s.exec p e).ptr i = m at *
  cases hch with
  | same hx hm | put _ _ _ he hx hm => rwa [hm]
  | add c he hx hm =>
    rw [hm]
    exact Multiset.mem_cons_of_mem hs
  | fill inum c he =>
    subst he
    have hpos := h.ref_pos (uses_of_single hs)
    rw [ho.2.2.1] at hpos
    cases hpos
  | del c he hx hm =>
    rw [hm]
    refine (Multiset.mem_erase_of_ne ?_).mpr hs
    exact fun heq => hq (Finset.singleton_injective heq)
  | share W V he hx hm =>
    subst he
    rw [hm]
    refine Multiset.mem_cons_of_mem ((Multiset.mem_erase_of_ne ?_).mpr hs)
    intro heq
    have hp := ho.2.2.1
    rw [← heq] at hp
    exact hq (Finset.mem_singleton.mp hp).symm

/-- A pointer with one user stays the only one, unless a lookup or `ialloc` finds the entry. -/
theorem alone_other (hq : q ≠ p) (ha : s.ptr i = {{q}}) :
    (s.exec p e).ptr i = {{q}} ∨ ∃ w, (s.pc p).getting = some ((s.slot i).inum, w) := by
  have hno (hu : s.Uses p i) : False := hq (uses_alone ha hu).symm
  have hch := change_exec s p e i
  generalize (s.exec p e).ptr i = m at *
  cases hch with
  | same hx hm | put _ _ _ he hx hm => exact .inl (hm.trans ha)
  | add c he hx hm =>
    subst he
    obtain hu | hw := ho.2.2.2
    · exact (hno hu).elim
    · exact .inr hw
  | fill inum c he =>
    subst he
    have hr := h.ref i
    rw [ho.2.2.1, ha] at hr
    cases hr
  | del c he hx hm =>
    subst he
    exact (hno (uses_of_single ho.2.2.1)).elim
  | share W V he hx hm =>
    subst he
    exact (hno ⟨W, ho.2.1, ho.2.2.1⟩).elim

/-- Nobody else changes what is under a sleep-lock. -/
theorem slot_other (hq : q ≠ p) (hl : s.slock i = some q) :
    ((s.exec p e).slot i).inum = (s.slot i).inum ∧
    ((s.exec p e).slot i).valid = (s.slot i).valid ∧
    ((s.exec p e).slot i).copy = (s.slot i).copy := by
  have hch := change_exec s p e i
  generalize (s.exec p e).slot i = x at *
  cases hch with
  | same hx | add _ _ hx | del _ _ hx | share _ _ _ hx =>
    rw [hx]
    exact ⟨rfl, rfl, rfl⟩
  | put valid copy c he =>
    subst he
    rw [ho.2] at hl
    exact absurd (Option.some.inj hl).symm hq
  | fill inum c he =>
    subst he
    have hpos := h.ref_pos (h.held q i hl)
    rw [ho.2.2.1] at hpos
    cases hpos

omit h

/-- An entry in use stays with its inode. -/
theorem inum_exec (hi : 0 < (s.slot i).ref) : ((s.exec p e).slot i).inum = (s.slot i).inum := by
  have hch := change_exec s p e i
  generalize (s.exec p e).slot i = x at *
  cases hch with
  | same hx | add _ _ hx | del _ _ hx | put _ _ _ _ hx | share _ _ _ hx => rw [hx]
  | fill inum c he =>
    subst he
    rw [ho.2.2.1] at hi
    cases hi

/-- Without `itable.lock` nobody changes a count or an inode number. -/
theorem table_other (ht : (s.pc p).tableLock = false) (i : Nat) :
    ((s.exec p e).slot i).ref = (s.slot i).ref ∧ ((s.exec p e).slot i).inum = (s.slot i).inum := by
  have hch := change_exec s p e i
  generalize (s.exec p e).slot i = x at *
  cases hch with
  | same hx | put _ _ _ _ hx | share _ _ _ hx =>
    rw [hx]
    exact ⟨rfl, rfl⟩
  | add c he | del c he | fill inum c he =>
    subst he
    rw [ho.1] at ht
    cases ht

theorem slock_other (hr : s.Ready e) (hq : q ≠ p) (i : Nat) :
    (s.exec p e).slock i = some q ↔ s.slock i = some q := by
  cases e with
  | take j c =>
    by_cases hi : i = j
    · subst hi
      have hfree : s.slock i = none := hr
      rw [show (s.exec p (.take i c)).slock i = some p from Function.update_self .., hfree]
      exact ⟨fun he => absurd (Option.some.inj he).symm hq, nofun⟩
    · rw [show (s.exec p (.take j c)).slock i = s.slock i from Function.update_of_ne hi _ _]
  | leave j c =>
    by_cases hi : i = j
    · subst hi
      rw [show (s.exec p (.leave i c)).slock i = none from Function.update_self .., ho.2]
      exact ⟨nofun, fun he => absurd (Option.some.inj he).symm hq⟩
    · rw [show (s.exec p (.leave j c)).slock i = s.slock i from Function.update_of_ne hi _ _]
  | _ => exact Iff.rfl

end Frame

/-- Nobody else changes an entry with one user. -/
theorem slot_alone (h : Inv n s) (ho : e.Ok n s p) (hq : q ≠ p) (ha : s.ptr i = {{q}}) :
    ((s.exec p e).slot i).inum = (s.slot i).inum ∧
    ((s.exec p e).slot i).valid = (s.slot i).valid ∧
    ((s.exec p e).slot i).copy = (s.slot i).copy := by
  have hch := change_exec s p e i
  generalize (s.exec p e).slot i = x at *
  cases hch with
  | same hx | add _ _ hx | del _ _ hx | share _ _ _ hx =>
    rw [hx]
    exact ⟨rfl, rfl, rfl⟩
  | put valid copy c he =>
    subst he
    exact absurd (uses_alone ha (h.held p i ho.2)).symm hq
  | fill inum c he =>
    subst he
    have hr := h.ref i
    rw [ho.2.2.1, ha] at hr
    cases hr

theorem disk_exec (s : State) (p : Nat) (e : Eff) (inum : Nat) :
    (s.exec p e).disk inum = s.disk inum ∨
      ∃ d c, e = .write inum d c ∧ (s.exec p e).disk inum = d := by
  cases e with
  | write inum' d c =>
    by_cases hi : inum = inum'
    · subst hi
      exact .inr ⟨d, c, rfl, Function.update_self ..⟩
    · exact .inl (Function.update_of_ne hi _ _)
  | _ => exact .inl rfl

theorem names_exec (s : State) (p : Nat) (e : Eff) (inum : Nat) :
    (s.exec p e).names inum = s.names inum ∨
      ∃ k, e = .name inum k ∧ (s.exec p e).names inum = k := by
  cases e with
  | name inum' k =>
    by_cases hi : inum = inum'
    · subst hi
      exact .inr ⟨k, rfl, Function.update_self ..⟩
    · exact .inl (Function.update_of_ne hi _ _)
  | _ => exact .inl rfl

/-- The inode of an entry in use is written by who has its lock, or by `ialloc` if it is free. -/
theorem write_used {d : Dinode} (h : Inv n s) (hi : 0 < (s.slot i).ref)
    (ho : (Eff.write (s.slot i).inum d c).Ok n s p) :
    (s.slock i = some p ∧ d = (s.slot i).copy) ∨
      (s.disk (s.slot i).inum).type = 0 ∧ d.type ≠ 0 := by
  obtain ⟨-, ⟨j, hl, hinum, hd⟩ | ⟨ht, hd, -⟩⟩ := ho
  · have hj := h.ref_pos (h.held p j hl)
    obtain rfl := h.uniq i j hi hj hinum.symm
    exact .inl ⟨hl, hd⟩
  · exact .inr ⟨ht, hd⟩

/-! Places. -/

theorem freeing_puts (hf : c.freeing = some i) : c.puts = some i := by
  cases c <;> first | exact hf | cases hf

theorem freed_puts (hf : c.freed = some i) : c.puts = some i := by
  cases c with
  | iputDrop j b =>
    cases b with
    | true => exact hf
    | false => cases hf
  | iputUpdate | iputValid | iputAway => exact hf
  | _ => cases hf

theorem away_freed (ha : c.away = some i) : c.freed = some i := by
  cases c with
  | iputDrop j b =>
    cases b with
    | true => exact ha
    | false => cases ha
  | iputValid | iputAway => exact ha
  | _ => cases ha

theorem freed_cases (hf : c.freed = some i) : c.stale = some i ∨ c.away = some i := by
  cases c with
  | iputDrop j b =>
    cases b with
    | true => exact .inr hf
    | false => cases hf
  | iputUpdate => exact .inl hf
  | iputValid | iputAway => exact .inr hf
  | _ => cases hf

theorem freeing_not_freed (hf : c.freeing = some i) : c.freed = none := by
  cases c <;> first | rfl | cases hf

theorem getting_not_freed {x : Nat × Why} (hg : c.getting = some x) : c.freed = none := by
  cases c with
  | iget | igetScan => rfl
  | _ => cases hg

theorem freeing_not_getting (hf : c.freeing = some i) : c.getting = none := by
  cases c <;> first | rfl | cases hf

theorem stale_has (hf : c.stale = some i) : c.has = some i := by
  cases c <;> first | exact hf | cases hf

theorem gone_has (hf : c.gone = some i) : c.has = some i := by
  cases c <;> first | exact hf | cases hf

end

end Xv6Labs.Itable
