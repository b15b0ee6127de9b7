import Xv6Labs.Kit.Run
import Xv6Labs.Fs.ItableInv

/-! The inode table is safe whatever the order of the steps: an inode has one entry, the counts are
right, what is in an unlocked entry is what is on the disk, `iput` frees nothing that is in use, and
the panics of `ilock` and `iunlock` are not reached. -/
namespace Xv6Labs.Itable
open Kit
open Fs (Dinode)

section
variable {n m : Nat} {s : State} {p q i j inum : Nat} {e : Eff}

/-! The locks and the counts. -/

theorem table_step (h : Inv n s) (ho : e.Ok n s p) (hr : s.Ready e) (q : Nat) :
    (s.exec p e).tlock = some q ↔ ((s.exec p e).pc q).tableLock = true := by
  by_cases hq : q = p
  · subst hq
    rw [pc_exec_self]
    have hold := h.table q
    cases e with
    | lock c => exact iff_of_true rfl ho.2
    | unlock c =>
      refine iff_of_false nofun ?_
      rw [show (Eff.unlock c).next (s.pc q) = c from rfl, ho.2]
      exact nofun
    | goto c =>
      rw [← ho] at hold
      exact hold
    | take | leave | put | write =>
      rw [← ho.1] at hold
      exact hold
    | add i c | del i c | fill i inum c =>
      have hdone : c = .tableDone := ho.2.1
      subst hdone
      rw [ho.1] at hold
      exact hold
    | name | share => exact hold
  · rw [pc_exec_of_ne s e hq, ← h.table q]
    cases e with
    | lock c =>
      have hfree : s.tlock = none := hr
      rw [hfree]
      exact ⟨fun he => absurd (Option.some.inj he).symm hq, nofun⟩
    | unlock c =>
      have hheld : s.tlock = some p := (h.table p).mpr ho.1
      rw [hheld]
      exact ⟨nofun, fun he => absurd (Option.some.inj he).symm hq⟩
    | _ => exact Iff.rfl

theorem ref_step (h : Inv n s) (ho : e.Ok n s p) (i : Nat) :
    ((s.exec p e).slot i).ref = ((s.exec p e).ptr i).card := by
  have hch := change_exec s p e i
  generalize (s.exec p e).slot i = x at *
  generalize (s.exec p e).ptr i = m at *
  have hold := h.ref i
  cases hch with
  | same hx hm | put _ _ _ _ hx hm =>
    rw [hx, hm]
    exact hold
  | add c he hx hm =>
    rw [hx, hm, Multiset.card_cons, ← hold]
  | fill inum c he hx hm =>
    rw [hx, hm]
    rfl
  | del c he hx hm =>
    subst he
    rw [hx, hm, Multiset.card_erase_of_mem ho.2.2.1, ← hold]
    rfl
  | share U V he hx hm =>
    subst he
    have hpos := Multiset.card_pos_iff_exists_mem.mpr ⟨U, ho.2.1⟩
    rw [hx, hm, Multiset.card_cons, Multiset.card_erase_of_mem ho.2.1, hold]
    exact (Nat.succ_pred_eq_of_pos hpos).symm

/-- An entry in use was in use before, or is new. -/
theorem used_before (ho : e.Ok n s p) (hi : 0 < ((s.exec p e).slot i).ref) :
    0 < (s.slot i).ref ∨ ∃ inum c, e = .fill i inum c ∧
      (s.exec p e).slot i = { s.slot i with inum := inum, ref := 1, valid := false } := by
  have hch := change_exec s p e i
  generalize (s.exec p e).slot i = x at *
  cases hch with
  | same hx | put _ _ _ _ hx | share _ _ _ hx =>
    rw [hx] at hi
    exact .inl hi
  | add c he hx =>
    subst he
    exact .inl ho.2.2.1
  | fill inum c he hx => exact .inr ⟨inum, c, he, hx⟩
  | del c he hx =>
    rw [hx] at hi
    exact .inl (Nat.lt_of_lt_of_le hi (Nat.sub_le _ _))

theorem lt_step (h : Inv n s) (ho : e.Ok n s p) (i : Nat)
    (hi : 0 < ((s.exec p e).slot i).ref) : i < n := by
  obtain hold | ⟨inum, c, rfl, -⟩ := used_before ho hi
  · exact h.lt i hold
  · exact ho.2.2.2.1

theorem uniq_step (h : Inv n s) (ho : e.Ok n s p) (i j : Nat)
    (hi : 0 < ((s.exec p e).slot i).ref) (hj : 0 < ((s.exec p e).slot j).ref)
    (hij : ((s.exec p e).slot i).inum = ((s.exec p e).slot j).inum) : i = j := by
  -- A new entry is for an inode that no entry had.
  have hnew {a b inum c} (he : e = .fill a inum c)
      (hx : (s.exec p e).slot a = { s.slot a with inum := inum, ref := 1, valid := false })
      (hb : 0 < (s.slot b).ref) :
      ((s.exec p e).slot a).inum ≠ ((s.exec p e).slot b).inum := by
    rw [hx, inum_exec ho hb]
    subst he
    exact fun heq => ho.2.2.2.2.1 b hb heq.symm
  obtain hi' | ⟨inum, c, hei, hxi⟩ := used_before ho hi <;>
    obtain hj' | ⟨inum', c', hej, hxj⟩ := used_before ho hj
  · rw [inum_exec ho hi', inum_exec ho hj'] at hij
    exact h.uniq i j hi' hj' hij
  · exact absurd hij.symm (hnew hej hxj hi')
  · exact absurd hij (hnew hei hxi hj')
  · rw [hei] at hej
    cases hej
    rfl

/-! The pointers. -/

theorem uses_code (h : Inv n s) (hc : Code n m s p (s.pc p) e)
    (hu : (e.next (s.pc p)).uses = some i) : s.Uses p i ∧ (s.exec p e).ptr = s.ptr := by
  have huses := h.uses p i
  generalize s.pc p = c at hc hu huses
  cases hc with
  | callIdup j hj | callIlock j hj =>
    cases hu
    exact ⟨hj, rfl⟩
  | callIunlock j hl | change j d hl =>
    cases hu
    exact ⟨h.held p i hl, rfl⟩
  | idupLock | ilockRef | ilockTake | ilockRead | ilockValid => exact ⟨huses hu, rfl⟩
  | _ => cases hu

theorem uses_step (h : Inv n s) (ho : e.Ok n s p) (hc : Code n m s p (s.pc p) e) (q i : Nat)
    (hu : ((s.exec p e).pc q).uses = some i) : (s.exec p e).Uses q i := by
  by_cases hq : q = p
  · subst hq
    rw [pc_exec_self] at hu
    obtain ⟨huses, hptr⟩ := uses_code h hc hu
    unfold State.Uses
    rw [hptr]
    exact huses
  · rw [pc_exec_of_ne s e hq] at hu
    exact uses_other h ho hq (h.uses q i hu)

theorem puts_code (h : Inv n s) (hc : Code n m s p (s.pc p) e)
    (hu : (e.next (s.pc p)).puts = some i) : {p} ∈ s.ptr i ∧ (s.exec p e).ptr = s.ptr := by
  have hputs := h.puts p i
  generalize s.pc p = c at hc hu hputs
  cases hc with
  | callIput j hj =>
    cases hu
    exact ⟨hj, rfl⟩
  | iputLock | iputLast | iputMore | iputTake | iputOpen | iputEmpty | iputTrunc | iputType
  | iputUpdate | iputValid | iputAway | iputAgain => exact ⟨hputs hu, rfl⟩
  | _ => cases hu

theorem puts_step (h : Inv n s) (ho : e.Ok n s p) (hc : Code n m s p (s.pc p) e) (q i : Nat)
    (hu : ((s.exec p e).pc q).puts = some i) : {q} ∈ (s.exec p e).ptr i := by
  by_cases hq : q = p
  · subst hq
    rw [pc_exec_self] at hu
    obtain ⟨hputs, hptr⟩ := puts_code h hc hu
    rw [hptr]
    exact hputs
  · rw [pc_exec_of_ne s e hq] at hu
    exact single_other h ho hq (h.puts q i hu)

/-- A process keeps the use of what it has locked. -/
theorem uses_locked (h : Inv n s) (ho : e.Ok n s p) (hl : s.slock i = some p) :
    (s.exec p e).Uses p i := by
  have hu := h.held p i hl
  have hpos := h.ref_pos hu
  obtain ⟨U, hU, hpU⟩ := hu
  have hch := change_exec s p e i
  unfold State.Uses
  generalize (s.exec p e).ptr i = m at *
  cases hch with
  | same hx hm | put _ _ _ he hx hm =>
    rw [hm]
    exact ⟨U, hU, hpU⟩
  | add c he hx hm =>
    rw [hm]
    exact ⟨U, Multiset.mem_cons_of_mem hU, hpU⟩
  | fill inum c he =>
    subst he
    rw [ho.2.2.1] at hpos
    cases hpos
  | del c he hx hm =>
    subst he
    exact absurd hl ho.2.2.2
  | share W V he hx hm =>
    subst he
    rw [hm]
    exact ⟨V, Multiset.mem_cons_self V _, ho.2.2.2.2 hl⟩

theorem slock_own (s : State) (p : Nat) (e : Eff) (hl : (s.exec p e).slock i = some p) :
    s.slock i = some p ∨ ∃ c, e = .take i c := by
  cases e with
  | take j c =>
    by_cases hi : i = j
    · subst hi
      exact .inr ⟨c, rfl⟩
    · rw [show (s.exec p (.take j c)).slock i = s.slock i from Function.update_of_ne hi _ _] at hl
      exact .inl hl
  | leave j c =>
    by_cases hi : i = j
    · subst hi
      rw [show (s.exec p (.leave i c)).slock i = none from Function.update_self ..] at hl
      cases hl
    · rw [show (s.exec p (.leave j c)).slock i = s.slock i from Function.update_of_ne hi _ _] at hl
      exact .inl hl
  | _ => exact .inl hl

theorem held_step (h : Inv n s) (ho : e.Ok n s p) (hr : s.Ready e) (q i : Nat)
    (hl : (s.exec p e).slock i = some q) : (s.exec p e).Uses q i := by
  by_cases hq : q = p
  · subst hq
    obtain hold | ⟨c, rfl⟩ := slock_own s q e hl
    · exact uses_locked h ho hold
    · exact ho.2
  · exact uses_other h ho hq (h.held q i ((slock_other ho hr hq i).mp hl))

theorem has_code (h : Inv n s) (hc : Code n m s p (s.pc p) e)
    (hu : (e.next (s.pc p)).has = some i) : (s.exec p e).slock i = some p := by
  have hhas := h.has p i
  generalize s.pc p = c at hc hu hhas
  cases hc with
  | ilockTake j | iputTake j =>
    cases hu
    exact Function.update_self ..
  | callIunlock j hl | change j d hl =>
    cases hu
    exact hl
  | ilockRead | ilockValid | iputOpen | iputEmpty | iputTrunc | iputType | iputUpdate
  | iputValid => exact hhas hu
  | _ => cases hu

theorem has_step (h : Inv n s) (ho : e.Ok n s p) (hr : s.Ready e)
    (hc : Code n m s p (s.pc p) e) (q i : Nat) (hu : ((s.exec p e).pc q).has = some i) :
    (s.exec p e).slock i = some q := by
  by_cases hq : q = p
  · subst hq
    rw [pc_exec_self] at hu
    exact has_code h hc hu
  · rw [pc_exec_of_ne s e hq] at hu
    exact (slock_other ho hr hq i).mpr (h.has q i hu)

theorem lacks_code (h : Inv n s) (hc : Code n m s p (s.pc p) e)
    (hu : (e.next (s.pc p)).lacks = some i) : (s.exec p e).slock i ≠ some p := by
  have hlacks := h.lacks p i
  generalize s.pc p = c at hc hu hlacks
  cases hc with
  | callIlock j hj hno | callIput j hj hno =>
    cases hu
    exact hno
  | iputAway j =>
    cases hu
    rw [show (s.exec p (.leave i (.iputAway i))).slock i = none from Function.update_self ..]
    exact nofun
  | ilockRef | iputLock | iputLast | iputMore | iputAgain => exact hlacks hu
  | _ => cases hu

theorem lacks_step (h : Inv n s) (ho : e.Ok n s p) (hr : s.Ready e)
    (hc : Code n m s p (s.pc p) e) (q i : Nat) (hu : ((s.exec p e).pc q).lacks = some i) :
    (s.exec p e).slock i ≠ some q := by
  by_cases hq : q = p
  · subst hq
    rw [pc_exec_self] at hu
    exact lacks_code h hc hu
  · rw [pc_exec_of_ne s e hq] at hu
    rw [Ne, slock_other ho hr hq i]
    exact h.lacks q i hu

end

/-! The stores under a sleep-lock and the writes to the disk, place by place. -/

inductive Put (s : State) (p i : Nat) (v : Bool) (d : Dinode) (c : Pc) : Prop
  | change (hpc : s.pc p = .out) (hv : v = (s.slot i).valid) (ht : d.type = (s.slot i).copy.type)
      (hn : (s.names (s.slot i).inum : Int) ≤ d.nlink.toInt) (hc : c = .changed i)
  | read (hpc : s.pc p = .ilockTaken i) (hv : v = false) (hd : d = s.disk (s.slot i).inum)
      (hc : c = .ilockRead i)
  | valid (hpc : s.pc p = .ilockRead i) (hv : v = true) (hd : d = (s.slot i).copy)
      (hc : c = .ilockValid i)
  | empty (hpc : s.pc p = .iputOpen i) (hv : v = (s.slot i).valid) (hd : d = trunc (s.slot i).copy)
      (hc : c = .iputEmpty i)
  | type (hpc : s.pc p = .iputTrunc i) (hv : v = (s.slot i).valid)
      (hd : d = { (s.slot i).copy with type := 0 }) (hc : c = .iputType i)
  | away (hpc : s.pc p = .iputUpdate i) (hv : v = false) (hd : d = (s.slot i).copy)
      (hc : c = .iputValid i)

inductive Write (s : State) (p inum : Nat) (d : Dinode) (c : Pc) : Prop
  | update (i : Nat) (hpc : s.pc p = .changed i) (hi : inum = (s.slot i).inum)
      (hd : d = (s.slot i).copy) (hc : c = .out)
  | trunc (i : Nat) (hpc : s.pc p = .iputEmpty i) (hi : inum = (s.slot i).inum)
      (hd : d = (s.slot i).copy) (hc : c = .iputTrunc i)
  | free (i : Nat) (hpc : s.pc p = .iputType i) (hi : inum = (s.slot i).inum)
      (hd : d = (s.slot i).copy) (hc : c = .iputUpdate i)
  | alloc (type : Int16) (hpc : s.pc p = .ialloc type inum) (ht : (s.disk inum).type = 0)
      (hd : d = .fresh type) (hc : c = .iget inum .fresh)

section
variable {n m : Nat} {s : State} {p q i j inum : Nat} {e : Eff} {c : Pc} {v : Bool} {d : Dinode}
  {w : Why}

theorem put_code (hc : Code n m s p (s.pc p) (.put i v d c)) : Put s p i v d c := by
  generalize hpc : s.pc p = c' at hc
  cases hc with
  | change i d hl ht hn => exact .change hpc rfl ht hn rfl
  | ilockRead => exact .read hpc rfl rfl rfl
  | ilockValid => exact .valid hpc rfl rfl rfl
  | iputEmpty => exact .empty hpc rfl rfl rfl
  | iputType => exact .type hpc rfl rfl rfl
  | iputValid => exact .away hpc rfl rfl rfl

theorem write_code (hc : Code n m s p (s.pc p) (.write inum d c)) : Write s p inum d c := by
  generalize hpc : s.pc p = c' at hc
  cases hc with
  | update i => exact .update i hpc rfl rfl rfl
  | iputTrunc i => exact .trunc i hpc rfl rfl rfl
  | iputUpdate i => exact .free i hpc rfl rfl rfl
  | iallocFound type inum hi ht => exact .alloc type hpc ht rfl rfl

theorem put_slot (s : State) (p i : Nat) (v : Bool) (d : Dinode) (c : Pc) :
    (s.exec p (.put i v d c)).slot i = { s.slot i with valid := v, copy := d } :=
  Function.update_self ..

theorem freed_alone (hf : (s.pc q).freed = some i) (ha : s.ptr i = {{q}}) (hu : s.Uses p i) :
    (s.pc p).freed = some i := by rwa [uses_alone ha hu]

theorem same_locked (hp : s.slock i = some p) (hq : s.slock i = some q) : q = p := by
  rw [hp] at hq
  exact (Option.some.inj hq).symm

/-- Whoever stops loading without a store has seen the flag set. -/
theorem loading_code (hc : Code n m s p (s.pc p) e) (hl : (s.exec p e).slock i = some p)
    (hload : (s.pc p).loading = some i) (hp : ∀ v d c, e ≠ .put i v d c) :
    (s.slot i).valid = true := by
  generalize s.pc p = c at hc hload
  cases hc with
  | ilockHave j hj =>
    cases hload
    exact hj
  | ilockRead j | ilockValid j =>
    cases hload
    exact absurd rfl (hp _ _ _)
  | iputAway j =>
    cases hload
    rw [show (s.exec p (.leave i (.iputAway i))).slock i = none from Function.update_self ..] at hl
    cases hl
  | _ => cases hload

/-- A type that has been cleared stays so until the entry is marked. -/
theorem gone_code (hc : Code n m s p (s.pc p) e) (hg : (s.pc p).gone = some i) :
    (e.next (s.pc p)).gone = some i ∨ ((s.exec p e).slot i).valid = false := by
  generalize s.pc p = c at hc hg
  cases hc with
  | iputUpdate j => exact .inl hg
  | iputValid j =>
    cases hg
    rw [put_slot]
    exact .inr rfl
  | _ => cases hg

/-- Where nobody stores, an entry in use keeps what is under the lock. -/
theorem slot_keep (ho : e.Ok n s p) (hi : 0 < (s.slot i).ref) (hp : ∀ v d c, e ≠ .put i v d c) :
    ((s.exec p e).slot i).valid = (s.slot i).valid ∧
      ((s.exec p e).slot i).copy = (s.slot i).copy := by
  have hch := change_exec s p e i
  generalize (s.exec p e).slot i = x at *
  cases hch with
  | same hx | add _ _ hx | del _ _ hx | share _ _ _ hx =>
    rw [hx]
    exact ⟨rfl, rfl⟩
  | fill inum c he =>
    subst he
    rw [ho.2.2.1] at hi
    cases hi
  | put v d c he => exact absurd he (hp v d c)

/-- After `iput` has freed the inode on the disk it gives up its pointer. -/
theorem freed_code (hc : Code n m s p (s.pc p) e) (hf : (s.pc p).freed = some i) :
    ((e.next (s.pc p)).freed = some i ∧ (s.exec p e).ptr = s.ptr ∧ (s.exec p e).disk = s.disk) ∨
      ∃ c, e = .del i c := by
  generalize s.pc p = c at hc hf
  cases hc with
  | iputValid | iputAway | iputAgain => exact .inl ⟨hf, rfl, rfl⟩
  | iputDrop j b =>
    cases b with
    | true =>
      cases hf
      exact .inr ⟨_, rfl⟩
    | false => cases hf
  | _ => cases hf

theorem write_disk (s : State) (p inum : Nat) (d : Dinode) (c : Pc) :
    (s.exec p (.write inum d c)).disk inum = d := Function.update_self ..

/-- Who leaves an entry different from the disk writes it back or marks it. -/
theorem stale_code (hc : Code n m s p (s.pc p) e) (hs : (s.pc p).stale = some i) :
    (e.next (s.pc p)).stale = some i ∨ ((s.exec p e).slot i).valid = false ∨
      ((s.exec p e).slot i).copy = (s.exec p e).disk ((s.exec p e).slot i).inum := by
  generalize s.pc p = c at hc hs
  cases hc with
  | update j | iputTrunc j =>
    cases hs
    exact .inr (.inr (write_disk s p (s.slot i).inum _ _).symm)
  | iputUpdate j => exact .inl hs
  | iputValid j =>
    cases hs
    rw [put_slot]
    exact .inr (.inl rfl)
  | _ => cases hs

theorem getting_code (hc : Code n m s p (s.pc p) e)
    (hg : (e.next (s.pc p)).getting = some (inum, w)) :
    (s.pc p).getting = some (inum, w) ∧ (s.exec p e).slot = s.slot ∧ (s.exec p e).ptr = s.ptr ∧
        (s.exec p e).disk = s.disk ∧ (s.exec p e).names = s.names ∧ (s.exec p e).slock = s.slock ∨
      (w = .named ∧ 0 < s.names inum ∧ (s.exec p e).names = s.names) ∨
      (w = .dot ∧ (s.exec p e).slot = s.slot ∧ (s.exec p e).slock = s.slock ∧
        ∃ i, s.slock i = some p ∧ (s.slot i).inum = inum) ∨
      (w = .fresh ∧ ∃ type, s.pc p = .ialloc type inum ∧ (s.disk inum).type = 0 ∧
        e = .write inum (.fresh type) (.iget inum .fresh)) := by
  generalize s.pc p = c at hc hg
  cases hc with
  | callIget k hk =>
    cases hg
    exact .inr (.inl ⟨rfl, hk, rfl⟩)
  | callDot i hl =>
    cases hg
    exact .inr (.inr (.inl ⟨rfl, rfl, rfl, i, hl, rfl⟩))
  | iallocFound type k hi ht =>
    cases hg
    exact .inr (.inr (.inr ⟨rfl, type, rfl, ht, rfl⟩))
  | igetLock | igetEmpty | igetNext => exact .inl ⟨hg, rfl, rfl, rfl, rfl, rfl⟩
  | _ => cases hg

theorem looked_of_getting (hg : (s.pc q).getting = some (inum, .named)) : s.Looked inum := by
  generalize hpc : s.pc q = c at hg
  cases c with
  | iget k w =>
    cases hg
    exact ⟨q, .inl hpc⟩
  | igetScan k w i e =>
    cases hg
    exact ⟨q, .inr ⟨i, e, hpc⟩⟩
  | _ => cases hg

section Facts
variable (h : Inv n s)
include h

/-- The inode of an entry that somebody uses is allocated, but for who has just freed it. -/
theorem Inv.disk_type (hu : s.Uses p i) (hf : (s.pc p).freed ≠ some i) :
    (s.disk (s.slot i).inum).type ≠ 0 := by
  obtain ht | ⟨q, hq, ha⟩ := h.disk i (h.ref_pos hu)
  · exact ht
  · exact absurd (freed_alone hq ha hu) hf

theorem Inv.copy_type (hl : s.slock i = some p) (hv : (s.slot i).valid = true)
    (hg : (s.pc p).gone ≠ some i) : (s.slot i).copy.type ≠ 0 := by
  obtain ht | ⟨q, hq⟩ := h.type i (h.ref_pos (h.held p i hl)) hv
  · exact ht
  · rw [same_locked hl (h.has q i (gone_has hq))] at hq
    exact absurd hq hg

theorem Inv.copy_disk (hl : s.slock i = some p) (hv : (s.slot i).valid = true)
    (hg : (s.pc p).stale ≠ some i) : (s.slot i).copy = s.disk (s.slot i).inum := by
  obtain ht | ⟨q, hq⟩ := h.coherent i (h.ref_pos (h.held p i hl)) hv
  · exact ht
  · rw [same_locked hl (h.has q i (stale_has hq))] at hq
    exact absurd hq hg

/-- Nobody looks for an inode that `iput` is about to free. -/
theorem Inv.no_getter (hf : (s.pc q).freeing = some i)
    (hg : (s.pc p).getting = some ((s.slot i).inum, w)) : False := by
  obtain ⟨ha, hv, hn⟩ := h.last q i hf
  have hu := h.uses_of_puts (freeing_puts hf)
  have hpos := h.ref_pos hu
  cases w with
  | named =>
    have hname := h.named p _ hg
    have hlink := h.link i hpos hv
    rw [hn] at hlink
    have : (s.names (s.slot i).inum : Int) ≤ 0 := hlink
    omega
  | dot =>
    obtain ⟨j, hl, hj⟩ := h.dot p _ hg
    have huj := h.held p j hl
    obtain rfl := h.uniq j i (h.ref_pos huj) hpos hj
    obtain rfl := uses_alone ha huj
    rw [freeing_not_getting hf] at hg
    cases hg
  | fresh =>
    obtain ⟨q', hf', ha'⟩ := (h.fresh p _ hg).2.2 i hpos rfl
    have hff := freed_alone hf' ha' hu
    rw [freeing_not_freed hf] at hff
    cases hff

/-- What `ialloc` takes has no entry in use but one that is on its way out. -/
theorem Inv.free_entry (hi : 0 < (s.slot i).ref) (ht : (s.disk (s.slot i).inum).type = 0) :
    ∃ q, (s.pc q).freed = some i ∧ s.ptr i = {{q}} := (h.disk i hi).resolve_left (fun hne => hne ht)

theorem last_code (hc : Code n m s p (s.pc p) e) (hf : (e.next (s.pc p)).freeing = some i) :
    (s.exec p e).ptr i = {{p}} ∧ ((s.exec p e).slot i).valid = true ∧
      ((s.exec p e).slot i).copy.nlink = 0 := by
  have hlast := h.last p i
  have hputs := h.puts p i
  generalize s.pc p = c at hc hf hlast hputs
  cases hc with
  | iputLast j hj =>
    cases hf
    refine ⟨?_, hj.2.1, hj.2.2⟩
    have hcard := h.ref i
    rw [hj.1] at hcard
    obtain ⟨U, hU⟩ := Multiset.card_eq_one.mp hcard.symm
    have hmem := hputs rfl
    rw [hU, Multiset.mem_singleton] at hmem
    rw [hmem]
    exact hU
  | iputEmpty j | iputType j =>
    cases hf
    obtain ⟨ha, hv, hn⟩ := hlast rfl
    rw [put_slot]
    exact ⟨ha, hv, hn⟩
  | iputTake | iputOpen | iputTrunc => exact hlast hf
  | _ => cases hf

theorem last_step (ho : e.Ok n s p) (hc : Code n m s p (s.pc p) e) (q i : Nat)
    (hf : ((s.exec p e).pc q).freeing = some i) :
    (s.exec p e).ptr i = {{q}} ∧ ((s.exec p e).slot i).valid = true ∧
      ((s.exec p e).slot i).copy.nlink = 0 := by
  by_cases hq : q = p
  · subst hq
    rw [pc_exec_self] at hf
    exact last_code h hc hf
  · rw [pc_exec_of_ne s e hq] at hf
    obtain ⟨ha, hv, hn⟩ := h.last q i hf
    obtain ⟨-, hvalid, hcopy⟩ := slot_alone h ho hq ha
    rw [hvalid, hcopy]
    obtain hsame | ⟨w, hw⟩ := alone_other h ho hq ha
    · exact ⟨hsame, hv, hn⟩
    · exact (h.no_getter hf hw).elim

theorem valid_own (hc : Code n m s p (s.pc p) e) (hl : s.slock i = some p)
    (hl' : (s.exec p e).slock i = some p) (hno : (e.next (s.pc p)).loading ≠ some i) :
    ((s.exec p e).slot i).valid = true := by
  have ho := code_ok h hc
  have hvalid := h.valid p i hl
  by_cases hput : ∃ v d c, e = .put i v d c
  · obtain ⟨v, d, c, rfl⟩ := hput
    rw [put_slot]
    cases put_code hc with
    | change hpc hv | empty hpc hv | type hpc hv =>
      rw [hv]
      exact hvalid (by rw [hpc]; nofun)
    | valid hpc hv => exact hv
    | read hpc hv hd hc' | away hpc hv hd hc' =>
      rw [hc'] at hno
      exact absurd rfl hno
  · push Not at hput
    rw [(slot_keep ho (h.ref_pos (h.held p i hl)) hput).1]
    by_contra hv
    have hload : (s.pc p).loading = some i := by
      by_contra hload
      exact hv (hvalid hload)
    exact hv (loading_code hc hl' hload hput)

theorem valid_step (hr : s.Ready e) (hc : Code n m s p (s.pc p) e) (q i : Nat)
    (hl : (s.exec p e).slock i = some q) (hno : ((s.exec p e).pc q).loading ≠ some i) :
    ((s.exec p e).slot i).valid = true := by
  have ho := code_ok h hc
  by_cases hq : q = p
  · subst hq
    rw [pc_exec_self] at hno
    obtain hold | ⟨c, rfl⟩ := slock_own s q e hl
    · exact valid_own h hc hold hl hno
    · have hlast := h.last q i
      generalize s.pc q = c' at hc hno hlast
      cases hc with
      | ilockTake j => exact absurd rfl hno
      | iputTake j => exact (hlast rfl).2.1
  · rw [pc_exec_of_ne s e hq] at hno
    have hold := (slock_other ho hr hq i).mp hl
    rw [(slot_other h ho hq hold).2.1]
    exact h.valid q i hold hno

theorem read_step (ho : e.Ok n s p) (hc : Code n m s p (s.pc p) e) (q i : Nat)
    (hpc : (s.exec p e).pc q = .ilockRead i) :
    ((s.exec p e).slot i).copy = (s.exec p e).disk ((s.exec p e).slot i).inum := by
  by_cases hq : q = p
  · subst hq
    rw [pc_exec_self] at hpc
    generalize s.pc q = c at hc hpc
    cases hc with
    | ilockRead j =>
      cases hpc
      rw [put_slot]
      rfl
    | _ => cases hpc
  · rw [pc_exec_of_ne s e hq] at hpc
    have hl := h.has q i (by rw [hpc]; rfl)
    have hu := h.uses q i (by rw [hpc]; rfl)
    obtain ⟨hinum, -, hcopy⟩ := slot_other h ho hq hl
    rw [hinum, hcopy, h.read q i hpc]
    obtain hsame | ⟨d, c, rfl, -⟩ := disk_exec s p e (s.slot i).inum
    · exact hsame.symm
    · obtain ⟨hlp, -⟩ | ⟨ht, -⟩ := write_used h (h.ref_pos hu) ho
      · exact absurd (same_locked hlp hl) hq
      · exact absurd ht (h.disk_type hu (by rw [hpc]; nofun))

theorem type_step (ho : e.Ok n s p) (hc : Code n m s p (s.pc p) e) (i : Nat)
    (hi : 0 < ((s.exec p e).slot i).ref) (hv : ((s.exec p e).slot i).valid = true) :
    ((s.exec p e).slot i).copy.type ≠ 0 ∨ ∃ q, ((s.exec p e).pc q).gone = some i := by
  obtain hpos | ⟨inum, c, -, hx⟩ := used_before ho hi
  · by_cases hput : ∃ v d c, e = .put i v d c
    · obtain ⟨v, d, c, rfl⟩ := hput
      rw [put_slot] at hv ⊢
      have hl : s.slock i = some p := ho.2
      cases put_code hc with
      | change hpc hv' ht =>
        left
        dsimp only
        rw [ht]
        exact h.copy_type hl (hv' ▸ hv) (by rw [hpc]; nofun)
      | valid hpc hv' hd =>
        left
        dsimp only
        rw [hd, h.read p i hpc]
        exact h.disk_type (h.held p i hl) (by rw [hpc]; nofun)
      | empty hpc hv' hd =>
        left
        dsimp only
        rw [hd]
        exact h.copy_type hl (hv' ▸ hv) (by rw [hpc]; nofun)
      | type hpc hv' hd hc' => exact .inr ⟨p, by rw [pc_exec_self, hc']; rfl⟩
      | read hpc hv' | away hpc hv' =>
        dsimp only at hv
        rw [hv'] at hv
        cases hv
    · push Not at hput
      obtain ⟨hvalid, hcopy⟩ := slot_keep ho hpos hput
      rw [hvalid] at hv
      rw [hcopy]
      obtain ht | ⟨q, hq⟩ := h.type i hpos hv
      · exact .inl ht
      · right
        by_cases hqp : q = p
        · subst hqp
          refine ⟨q, ?_⟩
          rw [pc_exec_self]
          refine (gone_code hc hq).resolve_right ?_
          rw [hvalid, hv]
          exact nofun
        · exact ⟨q, by rw [pc_exec_of_ne s e hqp]; exact hq⟩
  · rw [hx] at hv
    cases hv

/-- The last pointer to an entry whose inode is freed stays the only one, or goes. -/
theorem freed_step (ho : e.Ok n s p) (hc : Code n m s p (s.pc p) e)
    (hi : 0 < ((s.exec p e).slot i).ref) (hf : (s.pc q).freed = some i) (ha : s.ptr i = {{q}})
    (hg : ∀ w, (s.pc p).getting ≠ some ((s.slot i).inum, w)) :
    ((s.exec p e).pc q).freed = some i ∧ (s.exec p e).ptr i = {{q}} := by
  by_cases hq : q = p
  · subst hq
    obtain ⟨hnext, hptr, -⟩ | ⟨c, rfl⟩ := freed_code hc hf
    · rw [pc_exec_self, hptr]
      exact ⟨hnext, ha⟩
    · rw [ref_step h ho i, show (s.exec q (.del i c)).ptr i = (s.ptr i).erase {q} from
        Function.update_self .., ha] at hi
      simp at hi
  · rw [pc_exec_of_ne s e hq]
    obtain hsame | ⟨w, hw⟩ := alone_other h ho hq ha
    · exact ⟨hf, hsame⟩
    · exact absurd hw (hg w)

/-- Whoever looks for an inode finds it allocated. -/
theorem Inv.getting_type (hg : (s.pc p).getting = some (inum, w)) : (s.disk inum).type ≠ 0 := by
  cases w with
  | named => exact h.alloc inum (h.named p inum hg)
  | dot =>
    obtain ⟨i, hl, rfl⟩ := h.dot p inum hg
    refine h.disk_type (h.held p i hl) ?_
    rw [getting_not_freed hg]
    nofun
  | fresh => exact (h.fresh p inum hg).1

/-- A write to the inode of an entry in use leaves it allocated, or is that of `iput`. -/
theorem write_type (hc : Code n m s p (s.pc p) (.write (s.slot i).inum d c))
    (hi : 0 < (s.slot i).ref) :
    d.type ≠ 0 ∨ s.pc p = .iputType i ∧ c = .iputUpdate i := by
  have hslot {j} (hu : s.Uses p j) (hij : (s.slot i).inum = (s.slot j).inum) : i = j :=
    h.uniq i j hi (h.ref_pos hu) hij
  cases write_code hc with
  | update j hpc hij hd =>
    have hl := h.has p j (by rw [hpc]; rfl)
    obtain rfl := hslot (h.held p j hl) hij
    rw [hd]
    exact .inl (h.copy_type hl (h.valid p i hl (by rw [hpc]; nofun)) (by rw [hpc]; nofun))
  | trunc j hpc hij hd =>
    have hl := h.has p j (by rw [hpc]; rfl)
    obtain rfl := hslot (h.held p j hl) hij
    rw [hd]
    exact .inl (h.copy_type hl (h.valid p i hl (by rw [hpc]; nofun)) (by rw [hpc]; nofun))
  | free j hpc hij hd hc' =>
    have hl := h.has p j (by rw [hpc]; rfl)
    obtain rfl := hslot (h.held p j hl) hij
    exact .inr ⟨hpc, hc'⟩
  | alloc type hpc ht hd =>
    rw [hd]
    exact .inl (h.typed p type _ hpc)

theorem disk_step (ho : e.Ok n s p) (hc : Code n m s p (s.pc p) e) (i : Nat)
    (hi : 0 < ((s.exec p e).slot i).ref) :
    ((s.exec p e).disk ((s.exec p e).slot i).inum).type ≠ 0 ∨
      ∃ q, ((s.exec p e).pc q).freed = some i ∧ (s.exec p e).ptr i = {{q}} := by
  obtain hpos | ⟨inum, c, rfl, hx⟩ := used_before ho hi
  · rw [inum_exec ho hpos]
    obtain hsame | ⟨d, c, rfl, hd⟩ := disk_exec s p e (s.slot i).inum
    · rw [hsame]
      by_cases ht : (s.disk (s.slot i).inum).type = 0
      · obtain ⟨q, hf, ha⟩ := h.free_entry hpos ht
        exact .inr ⟨q, freed_step h ho hc hi hf ha fun w hw => h.getting_type hw ht⟩
      · exact .inl ht
    · rw [hd]
      obtain ht | ⟨hpc, rfl⟩ := write_type h hc hpos
      · exact .inl ht
      · refine .inr ⟨p, ?_, (h.last p i (by rw [hpc]; rfl)).1⟩
        rw [pc_exec_self]
        rfl
  · rw [hx]
    obtain ⟨w, hw⟩ := ho.2.2.2.2.2
    exact .inl (h.getting_type hw)

theorem away_code (hc : Code n m s p (s.pc p) e) (ha : (e.next (s.pc p)).away = some i)
    (ht : ((s.exec p e).disk ((s.exec p e).slot i).inum).type = 0) :
    ((s.exec p e).slot i).valid = false := by
  have haway := h.away p i
  generalize s.pc p = c at hc ha haway
  cases hc with
  | iputValid j =>
    cases ha
    rw [put_slot]
  | iputAway | iputAgain => exact haway ha ht
  | _ => cases ha

theorem away_step (ho : e.Ok n s p) (hc : Code n m s p (s.pc p) e) (q i : Nat)
    (ha : ((s.exec p e).pc q).away = some i)
    (ht : ((s.exec p e).disk ((s.exec p e).slot i).inum).type = 0) :
    ((s.exec p e).slot i).valid = false := by
  by_cases hq : q = p
  · subst hq
    rw [pc_exec_self] at ha
    exact away_code h hc ha ht
  · rw [pc_exec_of_ne s e hq] at ha
    have hu := h.uses_of_puts (freed_puts (away_freed ha))
    have hpos := h.ref_pos hu
    rw [inum_exec ho hpos] at ht
    have ht' : (s.disk (s.slot i).inum).type = 0 := by
      obtain hsame | ⟨d, c, rfl, hd⟩ := disk_exec s p e (s.slot i).inum
      · rwa [hsame] at ht
      · rw [hd] at ht
        obtain hne | ⟨hpc, -⟩ := write_type h hc hpos
        · exact absurd ht hne
        · -- Only `iput` clears the type, and then there is no other user.
          exact absurd (uses_alone (h.last p i (by rw [hpc]; rfl)).1 hu) hq
    have hv := h.away q i ha ht'
    by_cases hput : ∃ v d c, e = .put i v d c
    · obtain ⟨v, d, c, rfl⟩ := hput
      rw [put_slot]
      cases put_code hc with
      | change hpc hv' | empty hpc hv' | type hpc hv' => exact hv'.trans hv
      | read hpc hv' | away hpc hv' => exact hv'
      | valid hpc =>
        exact absurd ht' (h.disk_type (h.uses p i (by rw [hpc]; rfl)) (by rw [hpc]; nofun))
    · push Not at hput
      rw [(slot_keep ho hpos hput).1]
      exact hv

theorem coherent_step (ho : e.Ok n s p) (hc : Code n m s p (s.pc p) e) (i : Nat)
    (hi : 0 < ((s.exec p e).slot i).ref) (hv : ((s.exec p e).slot i).valid = true) :
    ((s.exec p e).slot i).copy = (s.exec p e).disk ((s.exec p e).slot i).inum ∨
      ∃ q, ((s.exec p e).pc q).stale = some i := by
  obtain hpos | ⟨inum, c, -, hx⟩ := used_before ho hi
  · by_cases hput : ∃ v d c, e = .put i v d c
    · obtain ⟨v, d, c, rfl⟩ := hput
      rw [put_slot] at hv ⊢
      cases put_code hc with
      | change hpc hv' ht hn hc' | empty hpc hv' hd hc' | type hpc hv' hd hc' =>
        exact .inr ⟨p, by rw [pc_exec_self, hc']; rfl⟩
      | valid hpc hv' hd =>
        left
        dsimp only
        rw [hd]
        exact h.read p i hpc
      | read hpc hv' | away hpc hv' =>
        dsimp only at hv
        rw [hv'] at hv
        cases hv
    · push Not at hput
      obtain ⟨hvalid, hcopy⟩ := slot_keep ho hpos hput
      obtain hold | ⟨q, hq⟩ := h.coherent i hpos (hvalid ▸ hv)
      · rw [hcopy, inum_exec ho hpos]
        obtain hsame | ⟨d, c, rfl, hd⟩ := disk_exec s p e (s.slot i).inum
        · exact .inl (hold.trans hsame.symm)
        · rw [hd]
          obtain ⟨-, hcp⟩ | ⟨ht, -⟩ := write_used h hpos ho
          · exact .inl hcp.symm
          · obtain ⟨q, hf, -⟩ := h.free_entry hpos ht
            obtain hst | haway := freed_cases hf
            · refine .inr ⟨q, ?_⟩
              have hqp : q ≠ p := by
                rintro rfl
                cases write_code hc with
                | update j hpc | trunc j hpc | free j hpc | alloc _ hpc =>
                  rw [hpc] at hf
                  cases hf
              rw [pc_exec_of_ne s _ hqp]
              exact hst
            · rw [hvalid, h.away q i haway ht] at hv
              cases hv
      · by_cases hqp : q = p
        · subst hqp
          obtain hnext | hno | heq := stale_code hc hq
          · exact .inr ⟨q, by rw [pc_exec_self]; exact hnext⟩
          · rw [hno] at hv
            cases hv
          · exact .inl heq
        · exact .inr ⟨q, by rw [pc_exec_of_ne s e hqp]; exact hq⟩
  · rw [hx] at hv
    cases hv

theorem link_step (ho : e.Ok n s p) (hc : Code n m s p (s.pc p) e) (i : Nat)
    (hi : 0 < ((s.exec p e).slot i).ref) (hv : ((s.exec p e).slot i).valid = true) :
    ((s.exec p e).names ((s.exec p e).slot i).inum : Int) ≤
      ((s.exec p e).slot i).copy.nlink.toInt := by
  obtain hpos | ⟨inum, c, -, hx⟩ := used_before ho hi
  · by_cases hput : ∃ v d c, e = .put i v d c
    · obtain ⟨v, d, c, rfl⟩ := hput
      rw [put_slot] at hv ⊢
      change (s.names (s.slot i).inum : Int) ≤ d.nlink.toInt
      cases put_code hc with
      | change hpc hv' ht hn => exact hn
      | valid hpc hv' hd =>
        rw [hd, h.read p i hpc]
        exact h.names _
      | empty hpc hv' hd | type hpc hv' hd =>
        rw [hd]
        exact h.link i hpos (hv' ▸ hv)
      | read hpc hv' | away hpc hv' =>
        dsimp only at hv
        rw [hv'] at hv
        cases hv
    · push Not at hput
      obtain ⟨hvalid, hcopy⟩ := slot_keep ho hpos hput
      have hold := h.link i hpos (hvalid ▸ hv)
      rw [hcopy, inum_exec ho hpos]
      obtain hsame | ⟨k, rfl, hk⟩ := names_exec s p e (s.slot i).inum
      · rw [hsame]
        exact hold
      · rw [hk]
        obtain ⟨-, ⟨hle, -⟩ | ⟨-, j, hl, hij, hn⟩⟩ := ho
        · exact le_trans (Int.ofNat_le.mpr hle) hold
        · obtain rfl := h.uniq i j hpos (h.ref_pos (h.held p j hl)) hij.symm
          exact hn
  · rw [hx] at hv
    cases hv

/-- A write under the sleep-lock keeps the count of the links that there are. -/
theorem write_nlink (hc : Code n m s p (s.pc p) (.write inum d c)) :
    (s.names inum : Int) ≤ d.nlink.toInt := by
  cases write_code hc with
  | update i hpc hi hd | trunc i hpc hi hd | free i hpc hi hd =>
    have hl := h.has p i (by rw [hpc]; rfl)
    rw [hi, hd]
    exact h.link i (h.ref_pos (h.held p i hl)) (h.valid p i hl (by rw [hpc]; nofun))
  | alloc type hpc ht hd =>
    have hzero : s.names inum = 0 := by
      by_contra hne
      exact h.alloc inum (Nat.pos_of_ne_zero hne) ht
    rw [hd, hzero]
    exact le_refl _

theorem names_step (ho : e.Ok n s p) (hc : Code n m s p (s.pc p) e) (inum : Nat) :
    ((s.exec p e).names inum : Int) ≤ ((s.exec p e).disk inum).nlink.toInt := by
  obtain hn | ⟨k, rfl, hk⟩ := names_exec s p e inum
  · rw [hn]
    obtain hd | ⟨d, c, rfl, hd⟩ := disk_exec s p e inum
    · rw [hd]
      exact h.names inum
    · rw [hd]
      exact write_nlink h hc
  · rw [hk]
    change (k : Int) ≤ (s.disk inum).nlink.toInt
    obtain ⟨hpc, ⟨hle, -⟩ | ⟨-, i, hl, rfl, hn⟩⟩ := ho
    · exact le_trans (Int.ofNat_le.mpr hle) (h.names inum)
    · have hv := h.valid p i hl (by rw [hpc]; nofun)
      rw [h.copy_disk hl hv (by rw [hpc]; nofun)] at hn
      exact hn

theorem alloc_step (ho : e.Ok n s p) (hc : Code n m s p (s.pc p) e) (inum : Nat)
    (hn : 0 < (s.exec p e).names inum) : ((s.exec p e).disk inum).type ≠ 0 := by
  obtain hsame | ⟨k, rfl, hk⟩ := names_exec s p e inum
  · rw [hsame] at hn
    obtain hd | ⟨d, c, rfl, hd⟩ := disk_exec s p e inum
    · rw [hd]
      exact h.alloc inum hn
    · rw [hd]
      cases write_code hc with
      | update i hpc hi hd | trunc i hpc hi hd =>
        have hl := h.has p i (by rw [hpc]; rfl)
        rw [hd]
        exact h.copy_type hl (h.valid p i hl (by rw [hpc]; nofun)) (by rw [hpc]; nofun)
      | free i hpc hi hd =>
        -- No links are left when `iput` frees the inode.
        have hle := write_nlink h hc
        rw [hd, (h.last p i (by rw [hpc]; rfl)).2.2] at hle
        have : (s.names inum : Int) ≤ 0 := hle
        omega
      | alloc type hpc ht => exact absurd ht (h.alloc inum hn)
  · rw [hk] at hn
    change (s.disk inum).type ≠ 0
    obtain ⟨hpc, ⟨hle, -⟩ | ⟨-, i, hl, rfl, -⟩⟩ := ho
    · exact h.alloc inum (lt_of_lt_of_le hn hle)
    · exact h.disk_type (h.held p i hl) (by rw [hpc]; nofun)

/-! Lookups. -/

theorem named_step (ho : e.Ok n s p) (hc : Code n m s p (s.pc p) e) (q inum : Nat)
    (hg : ((s.exec p e).pc q).getting = some (inum, .named)) : 0 < (s.exec p e).names inum := by
  by_cases hq : q = p
  · subst hq
    rw [pc_exec_self] at hg
    obtain ⟨hold, -, -, -, hn, -⟩ | ⟨-, hpos, hn⟩ | ⟨hw, -⟩ | ⟨hw, -⟩ := getting_code hc hg
    · rw [hn]
      exact h.named q inum hold
    · rw [hn]
      exact hpos
    · cases hw
    · cases hw
  · rw [pc_exec_of_ne s e hq] at hg
    have hold := h.named q inum hg
    obtain hsame | ⟨k, rfl, hk⟩ := names_exec s p e inum
    · rwa [hsame]
    · rw [hk]
      obtain ⟨-, ⟨-, hmore⟩ | ⟨hle, -⟩⟩ := ho
      · exact hmore (looked_of_getting hg)
      · exact lt_of_lt_of_le hold hle

/-- The directory stays locked while its `.` is looked up. -/
theorem dot_step (ho : e.Ok n s p) (hr : s.Ready e) (hc : Code n m s p (s.pc p) e) (q inum : Nat)
    (hg : ((s.exec p e).pc q).getting = some (inum, .dot)) :
    ∃ i, (s.exec p e).slock i = some q ∧ ((s.exec p e).slot i).inum = inum := by
  by_cases hq : q = p
  · subst hq
    rw [pc_exec_self] at hg
    obtain ⟨hold, hslot, -, -, -, hlock⟩ | ⟨hw, -⟩ | ⟨-, hslot, hlock, hi⟩ | ⟨hw, -⟩ :=
      getting_code hc hg
    · rw [hslot, hlock]
      exact h.dot q inum hold
    · cases hw
    · rw [hslot, hlock]
      exact hi
    · cases hw
  · rw [pc_exec_of_ne s e hq] at hg
    obtain ⟨i, hl, rfl⟩ := h.dot q inum hg
    exact ⟨i, (slock_other ho hr hq i).mpr hl, (slot_other h ho hq hl).1⟩

theorem typed_step (hc : Code n m s p (s.pc p) e) (q : Nat) (type : Int16) (inum : Nat)
    (hpc : (s.exec p e).pc q = .ialloc type inum) : type ≠ 0 := by
  by_cases hq : q = p
  · subst hq
    rw [pc_exec_self] at hpc
    have htyped := h.typed q
    generalize s.pc q = c at hc hpc htyped
    cases hc with
    | callIalloc k hk =>
      cases hpc
      exact hk
    | iallocNext =>
      cases hpc
      exact htyped _ _ rfl
    | _ => cases hpc
  · rw [pc_exec_of_ne s e hq] at hpc
    exact h.typed q type inum hpc

/-- Nobody has locked an entry for an inode that `ialloc` has just taken, but `iput` at its end. -/
theorem Inv.fresh_locked (hg : (s.pc q).getting = some (inum, .fresh)) (hl : s.slock i = some p)
    (hi : (s.slot i).inum = inum) : (s.pc p).freed = some i := by
  have hu := h.held p i hl
  obtain ⟨q', hf, ha⟩ := (h.fresh q inum hg).2.2 i (h.ref_pos hu) hi
  exact freed_alone hf ha hu

/-- No other lookup can be for an inode that `ialloc` has just taken. -/
theorem Inv.fresh_once (hg : (s.pc q).getting = some (inum, .fresh)) (hq : q ≠ p) :
    (s.pc p).getting ≠ some (inum, w) := by
  intro hp
  cases w with
  | named =>
    have hpos := h.named p inum hp
    rw [(h.fresh q inum hg).2.1] at hpos
    cases hpos
  | dot =>
    obtain ⟨i, hl, hi⟩ := h.dot p inum hp
    have hf := h.fresh_locked hg hl hi
    rw [getting_not_freed hp] at hf
    cases hf
  | fresh => exact hq (h.once q p inum hg hp)

theorem fresh_other (ho : e.Ok n s p) (hc : Code n m s p (s.pc p) e) (hq : q ≠ p)
    (hg : (s.pc q).getting = some (inum, .fresh)) :
    ((s.exec p e).disk inum).type ≠ 0 ∧ (s.exec p e).names inum = 0 ∧
      ∀ i, 0 < ((s.exec p e).slot i).ref → ((s.exec p e).slot i).inum = inum →
        ∃ q, ((s.exec p e).pc q).freed = some i ∧ (s.exec p e).ptr i = {{q}} := by
  obtain ⟨ht, hn, hslots⟩ := h.fresh q inum hg
  refine ⟨?_, ?_, ?_⟩
  · obtain hd | ⟨d, c, rfl, -⟩ := disk_exec s p e inum
    · rwa [hd]
    · exfalso
      cases write_code hc with
      | update i hpc hi | trunc i hpc hi | free i hpc hi =>
        have hf := h.fresh_locked hg (h.has p i (by rw [hpc]; rfl)) hi.symm
        rw [hpc] at hf
        cases hf
      | alloc type hpc ht' => exact ht ht'
  · obtain hsame | ⟨k, rfl, hk⟩ := names_exec s p e inum
    · rw [hsame, hn]
    · rw [hk]
      obtain ⟨hpc, ⟨hle, -⟩ | ⟨-, i, hl, hi, -⟩⟩ := ho
      · rw [hn] at hle
        exact Nat.le_zero.mp hle
      · have hf := h.fresh_locked hg hl hi
        rw [hpc] at hf
        cases hf
  · intro i hi hinum
    obtain hpos | ⟨inum', c, rfl, hx⟩ := used_before ho hi
    · rw [inum_exec ho hpos] at hinum
      obtain ⟨q', hf, ha⟩ := hslots i hpos hinum
      refine ⟨q', freed_step h ho hc hi hf ha ?_⟩
      intro w
      rw [hinum]
      exact h.fresh_once hg hq
    · rw [hx] at hinum
      obtain ⟨w, hw⟩ := ho.2.2.2.2.2
      rw [show inum' = inum from hinum] at hw
      exact absurd hw (h.fresh_once hg hq)

theorem fresh_step (ho : e.Ok n s p) (hc : Code n m s p (s.pc p) e) (q inum : Nat)
    (hg : ((s.exec p e).pc q).getting = some (inum, .fresh)) :
    ((s.exec p e).disk inum).type ≠ 0 ∧ (s.exec p e).names inum = 0 ∧
      ∀ i, 0 < ((s.exec p e).slot i).ref → ((s.exec p e).slot i).inum = inum →
        ∃ q, ((s.exec p e).pc q).freed = some i ∧ (s.exec p e).ptr i = {{q}} := by
  by_cases hq : q = p
  · subst hq
    rw [pc_exec_self] at hg
    obtain ⟨hold, hslot, hptr, hdisk, hn, -⟩ | ⟨hw, -⟩ | ⟨hw, -⟩ | ⟨-, type, hpc, ht, rfl⟩ :=
      getting_code hc hg
    · have hkeep {q' i} (hf : (s.pc q').freed = some i) : q' ≠ q := by
        rintro rfl
        rw [getting_not_freed hold] at hf
        cases hf
      rw [hslot, hptr, hdisk, hn]
      obtain ⟨ht, hz, hslots⟩ := h.fresh q inum hold
      refine ⟨ht, hz, ?_⟩
      intro i hi hinum
      obtain ⟨q', hf, ha⟩ := hslots i hi hinum
      exact ⟨q', by rw [pc_exec_of_ne s e (hkeep hf)]; exact hf, ha⟩
    · cases hw
    · cases hw
    · refine ⟨?_, ?_, ?_⟩
      · rw [write_disk]
        exact h.typed q type inum hpc
      · by_contra hne
        exact h.alloc inum (Nat.pos_of_ne_zero hne) ht
      · intro i hi hinum
        have hi : 0 < (s.slot i).ref := hi
        have hinum : (s.slot i).inum = inum := hinum
        obtain ⟨q', hf, ha⟩ := h.free_entry hi (by rw [hinum]; exact ht)
        have hne : q' ≠ q := by
          rintro rfl
          rw [hpc] at hf
          cases hf
        exact ⟨q', by rw [pc_exec_of_ne s _ hne]; exact hf, ha⟩
  · rw [pc_exec_of_ne s e hq] at hg
    exact fresh_other h ho hc hq hg

theorem once_step (hc : Code n m s p (s.pc p) e) (q q' inum : Nat)
    (hg : ((s.exec p e).pc q).getting = some (inum, .fresh))
    (hg' : ((s.exec p e).pc q').getting = some (inum, .fresh)) : q = q' := by
  -- A process that has just taken an inode has found it free.
  have hnew {x y} (hx : ((s.exec p e).pc x).getting = some (inum, .fresh))
      (hy : ((s.exec p e).pc y).getting = some (inum, .fresh)) (hxp : x = p) (hyp : y ≠ p) :
      False := by
    subst hxp
    rw [pc_exec_of_ne s e hyp] at hy
    rw [pc_exec_self] at hx
    obtain ⟨hold, -⟩ | ⟨hw, -⟩ | ⟨hw, -⟩ | ⟨-, type, -, ht, -⟩ := getting_code hc hx
    · exact hyp (h.once y x inum hy hold)
    · cases hw
    · cases hw
    · exact (h.fresh y inum hy).1 ht
  by_cases hq : q = p <;> by_cases hq' : q' = p
  · rw [hq, hq']
  · exact (hnew hg hg' hq hq').elim
  · exact (hnew hg' hg hq' hq).elim
  · rw [pc_exec_of_ne s e hq] at hg
    rw [pc_exec_of_ne s e hq'] at hg'
    exact h.once q q' inum hg hg'

theorem scan_code {k : Option Nat} (hc : Code n m s p (s.pc p) e)
    (hpc : e.next (s.pc p) = .igetScan inum w i k) :
    (s.exec p e).slot = s.slot ∧ (∀ j, j < i → 0 < (s.slot j).ref → (s.slot j).inum ≠ inum) ∧
      ∀ j, k = some j → j < n ∧ (s.slot j).ref = 0 := by
  have hscan := h.scan p
  generalize s.pc p = c at hc hpc hscan
  cases hc with
  | igetLock =>
    cases hpc
    exact ⟨rfl, nofun, nofun⟩
  | igetEmpty inum w i hi hr =>
    cases hpc
    obtain ⟨hno, -⟩ := hscan inum w i none rfl
    refine ⟨rfl, ?_, ?_⟩
    · intro j hj hpos
      by_cases hji : j = i
      · rw [hji, hr] at hpos
        cases hpos
      · exact hno j (by omega) hpos
    · rintro j ⟨⟩
      exact ⟨hi, hr⟩
  | igetNext inum w i k hi hm he =>
    cases hpc
    obtain ⟨hno, hempty⟩ := hscan inum w i k rfl
    refine ⟨rfl, ?_, hempty⟩
    intro j hj hpos hinum
    by_cases hji : j = i
    · subst hji
      exact hm ⟨hpos, hinum⟩
    · exact hno j (by omega) hpos hinum
  | _ => cases hpc

theorem scan_step (ho : e.Ok n s p) (hc : Code n m s p (s.pc p) e) (q inum : Nat) (w : Why)
    (i : Nat)
    (k : Option Nat) (hpc : (s.exec p e).pc q = .igetScan inum w i k) :
    (∀ j, j < i → 0 < ((s.exec p e).slot j).ref → ((s.exec p e).slot j).inum ≠ inum) ∧
      ∀ j, k = some j → j < n ∧ ((s.exec p e).slot j).ref = 0 := by
  by_cases hq : q = p
  · subst hq
    rw [pc_exec_self] at hpc
    obtain ⟨hslot, hboth⟩ := scan_code h hc hpc
    rw [hslot]
    exact hboth
  · rw [pc_exec_of_ne s e hq] at hpc
    -- The scan has `itable.lock`.
    have htable : (s.pc p).tableLock = false := by
      rw [← Bool.not_eq_true]
      intro hp
      have hheld := (h.table q).mpr (by rw [hpc]; rfl)
      rw [(h.table p).mpr hp] at hheld
      exact hq (Option.some.inj hheld).symm
    obtain ⟨hno, hempty⟩ := h.scan q inum w i k hpc
    refine ⟨?_, ?_⟩
    · intro j hj
      rw [(table_other ho htable j).1, (table_other ho htable j).2]
      exact hno j hj
    · intro j hj
      rw [(table_other ho htable j).1]
      exact hempty j hj

theorem calm_step (hc : Code n m s p (s.pc p) e) (q : Nat) (x : Panic)
    (hpc : (s.exec p e).pc q = .panic x) : x = .noInodes := by
  by_cases hq : q = p
  · subst hq
    rw [pc_exec_self] at hpc
    have huses := h.uses q
    have hhas := h.has q
    have hcopy {i} := h.copy_type (p := q) (i := i)
    have hvalid := h.valid q
    have hcalm := h.calm q
    generalize s.pc q = c at hc hpc huses hhas hcopy hvalid hcalm
    cases hc with
    | igetFull =>
      cases hpc
      rfl
    | ilockPanic i hr =>
      have hpos := h.ref_pos (huses i rfl)
      omega
    | ilockNoType i ht =>
      have hl := hhas i rfl
      exact absurd ht (hcopy hl (hvalid i hl nofun) nofun)
    | iunlockPanic i hbad =>
      have hpos := h.ref_pos (huses i rfl)
      cases hbad with
      | inl hno => exact absurd (hhas i rfl) hno
      | inr hr => omega
    | _ => cases hpc
  · rw [pc_exec_of_ne s e hq] at hpc
    exact h.calm q x hpc

theorem inv_exec (hc : Code n m s p (s.pc p) e) (hr : s.Ready e) : Inv n (s.exec p e) := by
  have ho := code_ok h hc
  exact {
    table := table_step h ho hr
    ref := ref_step h ho
    lt := lt_step h ho
    uniq := uniq_step h ho
    uses := uses_step h ho hc
    puts := puts_step h ho hc
    held := held_step h ho hr
    has := has_step h ho hr hc
    lacks := lacks_step h ho hr hc
    last := last_step h ho hc
    valid := valid_step h hr hc
    read := read_step h ho hc
    type := type_step h ho hc
    disk := disk_step h ho hc
    away := away_step h ho hc
    coherent := coherent_step h ho hc
    link := link_step h ho hc
    names := names_step h ho hc
    alloc := alloc_step h ho hc
    named := named_step h ho hc
    dot := dot_step h ho hr hc
    fresh := fresh_step h ho hc
    typed := typed_step h hc
    once := once_step h hc
    scan := scan_step h ho hc
    calm := calm_step h hc }

end Facts

theorem inv_init (h : s.Init) : Inv n s where
  table p := by simp [h.tlock, h.pc p, Pc.tableLock]
  ref i := by simp [h.ref i, h.ptr i]
  lt i hi := by simp [h.ref i] at hi
  uniq i j hi := by simp [h.ref i] at hi
  uses p i hu := by simp [h.pc p, Pc.uses] at hu
  puts p i hu := by simp [h.pc p, Pc.puts] at hu
  held p i hl := by simp [h.slock i] at hl
  has p i hu := by simp [h.pc p, Pc.has] at hu
  lacks p i hu := by simp [h.pc p, Pc.lacks] at hu
  last p i hu := by simp [h.pc p, Pc.freeing] at hu
  valid p i hl := by simp [h.slock i] at hl
  read p i hpc := by simp [h.pc p] at hpc
  type i hi := by simp [h.ref i] at hi
  disk i hi := by simp [h.ref i] at hi
  away p i hu := by simp [h.pc p, Pc.away] at hu
  coherent i hi := by simp [h.ref i] at hi
  link i hi := by simp [h.ref i] at hi
  names := h.names
  alloc := h.type
  named p inum hg := by simp [h.pc p, Pc.getting] at hg
  dot p inum hg := by simp [h.pc p, Pc.getting] at hg
  fresh p inum hg := by simp [h.pc p, Pc.getting] at hg
  typed p type inum hpc := by simp [h.pc p] at hpc
  once p q inum hg := by simp [h.pc p, Pc.getting] at hg
  scan p inum w i k hpc := by simp [h.pc p] at hpc
  calm p x hpc := by simp [h.pc p] at hpc

variable {s₀ : State} {tr : List Nat}

theorem inv_run (h : s₀.Init) (hr : Run (Step n m) s₀ tr s) : Inv n s := by
  refine hr.invariant (inv_init h) ?_
  rintro s p t hi ⟨hc, hready⟩
  exact inv_exec hi hc hready

/-- An empty disk. -/
def blank : State where
  slot := fun _ => ⟨0, 0, false, .fresh 0⟩
  disk := fun _ => .fresh 0
  tlock := none
  slock := fun _ => none
  ptr := fun _ => 0
  names := fun _ => 0
  pc := fun _ => .out

theorem blank_init : blank.Init :=
  ⟨fun _ => rfl, fun _ => rfl, rfl, fun _ => rfl, fun _ => le_refl _, nofun, fun _ => rfl⟩

/-- A process makes an inode and drops it, and another one is about to take the inode again. -/
theorem made_and_dropped : ∃ tr s tr' t, Run (Step 1 2) blank tr s ∧ s.pc 0 = .iputLast 0 ∧
    Run (Step 1 2) blank tr' t ∧ t.pc 1 = .ialloc 2 1 ∧ (t.disk 1).type = 0 ∧
    0 < (t.slot 0).ref ∧ (t.slot 0).inum = 1 := by
  have h1 := (Run.nil : Run (Step 1 2) blank [] blank).snoc (a := 0)
    (.mk (.callIalloc 2 (by decide)) trivial)
  have h2 := h1.snoc (a := 0) (.mk (.iallocFound 2 1 (by decide) rfl) trivial)
  have h3 := h2.snoc (a := 0) (.mk (.igetLock 1 .fresh) rfl)
  have h4 := h3.snoc (a := 0) (.mk (.igetEmpty 1 .fresh 0 (by decide) rfl) trivial)
  have h5 := h4.snoc (a := 0) (.mk (.igetRecycle 1 .fresh 1 0 (by decide)) trivial)
  have h6 := h5.snoc (a := 0) (.mk .tableDone trivial)
  have h7 := h6.snoc (a := 0) (.mk (.callIlock 0
    ⟨{0}, Multiset.mem_singleton_self _, Finset.mem_singleton_self 0⟩ nofun) trivial)
  have h8 := h7.snoc (a := 0) (.mk (.ilockRef 0 (by decide)) trivial)
  have h9 := h8.snoc (a := 0) (.mk (.ilockTake 0) rfl)
  have h10 := h9.snoc (a := 0) (.mk (.ilockRead 0 rfl) trivial)
  have h11 := h10.snoc (a := 0) (.mk (.ilockValid 0) trivial)
  have h12 := h11.snoc (a := 0) (.mk (.ilockDone 0 (by decide)) trivial)
  have h13 := h12.snoc (a := 0) (.mk (.callIunlock 0 rfl) trivial)
  have h14 := h13.snoc (a := 0) (.mk (.iunlock 0 (by decide)) trivial)
  have h15 := h14.snoc (a := 0) (.mk (.callIput 0 (Multiset.mem_singleton_self _) nofun) trivial)
  have h16 := h15.snoc (a := 0) (.mk (.iputLock 0) rfl)
  have h17 := h16.snoc (a := 0) (.mk (.iputLast 0 ⟨rfl, rfl, rfl⟩) trivial)
  have h18 := h17.snoc (a := 0) (.mk (.iputTake 0) rfl)
  have h19 := h18.snoc (a := 0) (.mk (.iputOpen 0) trivial)
  have h20 := h19.snoc (a := 0) (.mk (.iputEmpty 0) trivial)
  have h21 := h20.snoc (a := 0) (.mk (.iputTrunc 0) trivial)
  have h22 := h21.snoc (a := 0) (.mk (.iputType 0) trivial)
  have h23 := h22.snoc (a := 0) (.mk (.iputUpdate 0) trivial)
  have h24 := h23.snoc (a := 1) (.mk (.callIalloc 2 (by decide)) trivial)
  exact ⟨_, _, _, _, h17, rfl, h24, rfl, rfl, by decide, rfl⟩

/-- The inode table under concurrency: an inode has at most one entry, `ip->ref` is the number of
pointers, an entry that is valid and not locked is what is on the disk, and of the panics only that
of a full table is reached. -/
theorem itable_sound (h : s₀.Init) (hr : Run (Step n m) s₀ tr s) :
    (∀ i j, 0 < (s.slot i).ref → 0 < (s.slot j).ref → (s.slot i).inum = (s.slot j).inum → i = j) ∧
    (∀ i, (s.slot i).ref = (s.ptr i).card) ∧
    (∀ i, 0 < (s.slot i).ref → (s.slot i).valid = true → s.slock i = none →
      (s.slot i).copy = s.disk (s.slot i).inum ∧ (s.slot i).copy.type ≠ 0) ∧
    ∀ p x, s.pc p = .panic x → x = .noInodes := by
  have hi := inv_run h hr
  refine ⟨hi.uniq, hi.ref, ?_, hi.calm⟩
  intro i hpos hv hfree
  have hno {q} (hq : (s.pc q).has = some i) : False := by
    have hl := hi.has q i hq
    rw [hfree] at hl
    cases hl
  constructor
  · exact (hi.coherent i hpos hv).resolve_right fun ⟨q, hq⟩ => hno (stale_has hq)
  · exact (hi.type i hpos hv).resolve_right fun ⟨q, hq⟩ => hno (gone_has hq)

theorem itable_sound_dropped : ∃ tr s, Run (Step 1 2) blank tr s ∧ (s.slot 0).ref = (s.ptr 0).card := by
  obtain ⟨tr, s, -, -, hr, -⟩ := made_and_dropped
  exact ⟨tr, s, hr, (itable_sound blank_init hr).2.1 0⟩

/-- The window in `iput`: when it asks for the sleep-lock with `itable.lock` held, the lock is free,
and until the inode is free on the disk no other process has or gets a pointer to the entry. -/
theorem iput_window (h : s₀.Init) (hr : Run (Step n m) s₀ tr s) :
    (∀ p i, s.pc p = .iputLast i → s.slock i = none) ∧
    ∀ p i, (s.pc p).freeing = some i →
      s.names (s.slot i).inum = 0 ∧ (∀ q, s.Uses q i → q = p) ∧
      ∀ q w, (s.pc q).getting ≠ some ((s.slot i).inum, w) := by
  have hi := inv_run h hr
  constructor
  · intro p i hpc
    cases hl : s.slock i with
    | none => rfl
    | some q =>
      have ha := (hi.last p i (by rw [hpc]; rfl)).1
      rw [uses_alone ha (hi.held q i hl)] at hl
      exact absurd hl (hi.lacks p i (by rw [hpc]; rfl))
  · intro p i hf
    obtain ⟨ha, hv, hn⟩ := hi.last p i hf
    refine ⟨?_, fun q hu => uses_alone ha hu, fun q w hg => hi.no_getter hf hg⟩
    have hle := hi.link i (hi.ref_pos (hi.uses_of_puts (freeing_puts hf))) hv
    rw [hn] at hle
    have : (s.names (s.slot i).inum : Int) ≤ 0 := hle
    omega

theorem iput_window_dropped : ∃ tr s, Run (Step 1 2) blank tr s ∧ s.pc 0 = .iputLast 0 ∧
    s.slock 0 = none := by
  obtain ⟨tr, s, -, -, hr, hpc, -⟩ := made_and_dropped
  exact ⟨tr, s, hr, hpc, (iput_window blank_init hr).1 0 0 hpc⟩

/-- `ialloc` may take an inode that `iput` has freed before `iput` is done: the entry it then shares
has no other user than that `iput`, which is past its last access to the disk. -/
theorem ialloc_takes_free (h : s₀.Init) (hr : Run (Step n m) s₀ tr s) {type : Int16}
    (hpc : s.pc p = .ialloc type inum) (ht : (s.disk inum).type = 0) (hi : 0 < (s.slot i).ref)
    (hinum : (s.slot i).inum = inum) :
    ∃ q, q ≠ p ∧ (s.pc q).freed = some i ∧ ∀ r, s.Uses r i → r = q := by
  obtain ⟨q, hf, ha⟩ := (inv_run h hr).free_entry hi (by rw [hinum]; exact ht)
  refine ⟨q, ?_, hf, fun r hu => uses_alone ha hu⟩
  rintro rfl
  rw [hpc] at hf
  cases hf

theorem ialloc_takes_free_dropped : ∃ tr s, Run (Step 1 2) blank tr s ∧ s.pc 1 = .ialloc 2 1 ∧
    ∃ q, q ≠ 1 ∧ (s.pc q).freed = some 0 ∧ ∀ r, s.Uses r 0 → r = q := by
  obtain ⟨-, -, tr, s, -, -, hr, hpc, ht, hi, hinum⟩ := made_and_dropped
  exact ⟨tr, s, hr, hpc, ialloc_takes_free blank_init hr hpc ht hi hinum⟩

end

end Xv6Labs.Itable
