import Mathlib.Data.Fintype.Card
import Mathlib.Data.List.Find
import Xv6Labs.Kit.Client
import Xv6Labs.Fs.ShortWrite
import Xv6Labs.Fs.Reclaim
import Xv6Labs.Sys.Inodes

/-! The inode layer on the disk against the inode layer on byte arrays: every program that uses
the calls of `kernel/fs.c` gets the same values from both. A pointer to an inode is named by its
inode number; on the disk it stands for the entry in use for that number. -/
namespace Xv6Labs.Sys
open Kit Bytes Fs

/-- The calls that the layers above make. Their own changes to an inode are those of the link
count and the device numbers. -/
inductive Op where
  | ialloc (type : Int16)
  | iget (i : Nat)
  | idup (i : Nat)
  | ilock (i : Nat)
  | iunlock (i : Nat)
  | iput (i : Nat)
  | inode (i : Nat)
  | setLink (i : Nat) (major minor nlink : Int16)
  | itrunc (i : Nat)
  | readi (i : Nat) (off n : UInt32)
  | writei (i : Nat) (src : Buf) (off n : UInt32)

abbrev Op.Ret : Op → Type
  | .ialloc _ => Option Nat
  | .inode _ => Node
  | .readi _ _ _ => List UInt8
  | .writei _ _ _ _ => Int
  | _ => Unit

/-- What a caller must not do and the code does not check: to use a pointer without a reference,
to touch an inode without its lock, or to drop the last reference under the lock. -/
abbrev misuse : String := "misuse"

/-! The calls on byte arrays. -/

/-- `m`, for a caller that has locked the inode `i`. -/
def underLock {α : Type} (i : Nat) (m : K α) : K α := fun s =>
  if s.locked i then m s else .error misuse

def Node.link (n : Node) (major minor nlink : Int16) : Node :=
  { n with major := major, minor := minor, nlink := nlink }

def Op.onArrays : (c : Op) → K c.Ret
  | .ialloc type => Sys.ialloc type
  | .iget i => fun s => if i < s.ninodes then Sys.iget i s else .error misuse
  | .idup i => fun s => if s.ref i = 0 then .error misuse else Sys.idup i s
  | .ilock i => Sys.ilock i
  | .iunlock i => Sys.iunlock i
  | .iput i => fun s =>
    if s.ref i = 0 ∨ s.ref i = 1 ∧ s.locked i then .error misuse else Sys.iput i s
  | .inode i => underLock i (Sys.inode i)
  | .setLink i major minor nlink => underLock i (iupdate i fun n => n.link major minor nlink)
  | .itrunc i => underLock i (Sys.itrunc i)
  | .readi i off n => underLock i (Sys.readi i off.toNat n.toNat)
  | .writei i src off n =>
    underLock i (Sys.writei i ((List.range n.toNat).map src) off.toNat)

/-! The calls on the disk. -/

/-- The volume, the table of inodes, and the sleep-locks of its entries. -/
structure Disk where
  fs : FS
  locked : Fin ninode → Bool

/-- The entry in use for an inode number. -/
def entryOf (fs : FS) (i : Nat) : Option (Fin ninode) :=
  (List.finRange ninode).find? fun e => (fs.inode e).ref > 0 ∧ (fs.inode e).inum = i

abbrev D := StateT Disk (Except String)

/-- A call on the entry of the inode `i`; `msg` is what there is without one. -/
def onEntry {α : Type} (i : Nat) (msg : String) (f : Disk → Fin ninode → Except String (α × Disk)) :
    D α := fun d =>
  match entryOf d.fs i with
  | none => .error msg
  | some e => f d e

/-- A call on the entry of an inode that the caller has locked. -/
def onLocked {α : Type} (i : Nat) (f : Disk → Fin ninode → Except String (α × Disk)) : D α :=
  onEntry i misuse fun d e => if d.locked e then f d e else .error misuse

/-- An inode of the disk with its content. -/
def nodeAt (v : Vol) (d : Dinode) : Node := ⟨d.type, d.major, d.minor, d.nlink, content v d⟩

def Op.onDisk (sb : Superblock) : (c : Op) → D c.Ret
  | .ialloc type => fun d => (d.fs.ialloc sb type).map fun r =>
    (r.1.map fun e => (r.2.inode e).inum, { d with fs := r.2 })
  | .iget i => fun d =>
    if i < sb.ninodes then (d.fs.iget i).map fun r => ((), { d with fs := r.2 }) else .error misuse
  | .idup i => onEntry i misuse fun d e => .ok ((), { d with fs := d.fs.idup e })
  | .ilock i => onEntry i "ilock" fun d e =>
    if d.locked e then .error "acquiresleep"
    else (d.fs.ilock sb e).map fun fs => ((), ⟨fs, Function.update d.locked e true⟩)
  | .iunlock i => onEntry i "iunlock" fun d e =>
    (d.fs.iunlock d.locked e).map fun fs => ((), ⟨fs, Function.update d.locked e false⟩)
  | .iput i => onEntry i misuse fun d e =>
    if (d.fs.inode e).ref = 1 ∧ d.locked e then .error misuse
    else (d.fs.iput sb e).map fun fs => ((), { d with fs := fs })
  | .inode i => onLocked i fun d e => .ok (nodeAt d.fs.vol (d.fs.inode e).copy, d)
  | .setLink i major minor nlink => onLocked i fun d e =>
    .ok ((), { d with fs := d.fs.setLink sb e major minor nlink })
  | .itrunc i => onLocked i fun d e =>
    (Fs.itrunc sb d.fs.vol (d.fs.inode e).inum (d.fs.inode e).copy).map fun r =>
      ((), { d with fs := { d.fs with vol := r.2 }.set e { d.fs.inode e with copy := r.1 } })
  | .readi i off n => onLocked i fun d e =>
    (Fs.readi sb d.fs.vol (d.fs.inode e).copy kernelDst off.toNat n.toNat).map fun r =>
      (r.2.1, { d with fs := { d.fs with vol := r.2.2.2 }.set e { d.fs.inode e with copy := r.2.2.1 } })
  | .writei i src off n => onLocked i fun d e =>
    (d.fs.write sb e src off.toNat n.toNat).map fun r => (r.1, { d with fs := r.2 })

/-! What relates the two. -/

/-- The inodes of the disk and the arrays. -/
structure Nodes (sb : Superblock) (v : Vol) (node : Nat → Node) : Prop where
  type : ∀ i < sb.ninodes, (node i).type = (v.dinode sb i).type
  node : ∀ i < sb.ninodes, (v.dinode sb i).type ≠ 0 → node i = nodeAt v (v.dinode sb i)

/-- The table of inodes and the counts, flags and locks by inode number. -/
structure Table (fs : FS) (locked : Fin ninode → Bool) (s : State) : Prop where
  held : ∀ e, fs.Held e → s.ref (fs.inode e).inum = (fs.inode e).ref ∧
    s.valid (fs.inode e).inum = (fs.inode e).valid ∧ s.locked (fs.inode e).inum = locked e
  free : ∀ i, (∀ e, fs.Held e → (fs.inode e).inum ≠ i) → s.ref i = 0 ∧ s.locked i = false
  lock : ∀ e, locked e → fs.Locked e
  inuse : s.inuse = (Finset.univ.filter fun e => fs.Held e).card

structure Abs (sb : Superblock) (d : Disk) (s : State) : Prop where
  inv : FsInv sb d.fs
  ninodes : s.ninodes = sb.ninodes
  nodes : Nodes sb d.fs.vol s.node
  table : Table d.fs d.locked s

/-- The array side leaves open how much a `writei` can store. -/
def State.withRoom (room : Nat → Nat) (s : State) : State := { s with room := room }

variable {sb : Superblock} {fs fs' : FS} {locked locked' : Fin ninode → Bool} {s s' : State}
  {e : Fin ninode} {i : Nat} {v v' : Vol} {node : Nat → Node}

theorem entry_some (h : entryOf fs i = some e) : fs.Held e ∧ (fs.inode e).inum = i := by
  simpa [FS.Held] using List.find?_some h

theorem entry_none (h : entryOf fs i = none) : ∀ e, fs.Held e → (fs.inode e).inum ≠ i := by
  intro e he
  have := List.find?_eq_none.mp h e (List.mem_finRange e)
  unfold FS.Held at he
  simpa [he] using this

/-! The table. -/

/-- A new value for the entry of an inode that stays or becomes referenced. -/
theorem Table.put (ip : Inode) (h : Table fs locked s)
    (hu : ∀ e e', fs.Held e → fs.Held e' → (fs.inode e).inum = (fs.inode e').inum → e = e')
    (he : fs.Held e ∧ (fs.inode e).inum = ip.inum ∨
      ¬ fs.Held e ∧ ∀ j, fs.Held j → (fs.inode j).inum ≠ ip.inum)
    (hpos : 0 < ip.ref) (hfs : ∀ j, fs'.inode j = if j = e then ip else fs.inode j)
    (hself : s'.ref ip.inum = ip.ref ∧ s'.valid ip.inum = ip.valid ∧ s'.locked ip.inum = locked' e)
    (hother : ∀ i ≠ ip.inum, s'.ref i = s.ref i ∧ s'.valid i = s.valid i ∧
      s'.locked i = s.locked i)
    (hlock : ∀ j ≠ e, locked' j = locked j) (hval : locked' e → ip.valid)
    (hinuse : s'.inuse = if fs.Held e then s.inuse else s.inuse + 1) : Table fs' locked' s' := by
  have hne : ∀ j, j ≠ e → fs.Held j → (fs.inode j).inum ≠ ip.inum := by
    intro j hj hheld heq
    cases he with
    | inl he => exact hj (hu j e hheld he.1 (heq.trans he.2.symm))
    | inr he => exact he.2 j hheld heq
  have hentry : fs'.inode e = ip := by rw [hfs, if_pos rfl]
  have hkeep : ∀ j, j ≠ e → fs'.inode j = fs.inode j := fun j hj => by rw [hfs, if_neg hj]
  have hheldE : fs'.Held e := by
    unfold FS.Held
    rw [hentry]
    exact hpos
  have hheldJ : ∀ j, j ≠ e → (fs'.Held j ↔ fs.Held j) := by
    intro j hj
    unfold FS.Held
    rw [hkeep j hj]
  constructor
  · intro j hj
    by_cases hje : j = e
    · rw [hje, hentry]
      exact hself
    · have hj' := (hheldJ j hje).mp hj
      obtain ⟨h1, h2, h3⟩ := hother _ (hne j hje hj')
      rw [hkeep j hje, h1, h2, h3, hlock j hje]
      exact h.held j hj'
  · intro i hi
    have hii : i ≠ ip.inum := fun heq => hi e hheldE (by rw [hentry, heq])
    obtain ⟨h1, -, h3⟩ := hother i hii
    rw [h1, h3]
    refine h.free i fun j hj heq => ?_
    by_cases hje : j = e
    · cases he with
      | inl he => exact hii (heq.symm.trans (hje ▸ he.2))
      | inr he => exact he.1 (hje ▸ hj)
    · exact hi j ((hheldJ j hje).mpr hj) (by rw [hkeep j hje, heq])
  · intro j hj
    by_cases hje : j = e
    · subst hje
      exact ⟨hheldE, by rw [hentry]; exact hval hj⟩
    · rw [hlock j hje] at hj
      obtain ⟨h1, h2⟩ := h.lock j hj
      exact ⟨(hheldJ j hje).mpr h1, by rw [hkeep j hje]; exact h2⟩
  · have hset : (Finset.univ.filter fun j => fs'.Held j) =
        insert e (Finset.univ.filter fun j => fs.Held j) := by
      ext j
      simp only [Finset.mem_filter, Finset.mem_univ, true_and, Finset.mem_insert]
      by_cases hje : j = e
      · simp [hje, hheldE]
      · simp [hje, hheldJ j hje]
    rw [hset, hinuse, h.inuse]
    split
    · next hh => rw [Finset.insert_eq_of_mem (by simpa using hh)]
    · next hh => rw [Finset.card_insert_of_notMem (by simpa using hh)]

/-- The last reference to an inode goes. -/
theorem Table.erase {ip : Inode} (h : Table fs locked s)
    (hu : ∀ e e', fs.Held e → fs.Held e' → (fs.inode e).inum = (fs.inode e').inum → e = e')
    (he : fs.Held e) (hunl : locked e = false) (hzero : ip.ref = 0)
    (hfs : ∀ j, fs'.inode j = if j = e then ip else fs.inode j)
    (hself : s'.ref (fs.inode e).inum = 0 ∧ s'.locked (fs.inode e).inum = false)
    (hother : ∀ i ≠ (fs.inode e).inum, s'.ref i = s.ref i ∧ s'.valid i = s.valid i ∧
      s'.locked i = s.locked i)
    (hinuse : s'.inuse = s.inuse - 1) : Table fs' locked s' := by
  have hkeep : ∀ j, j ≠ e → fs'.inode j = fs.inode j := fun j hj => by rw [hfs, if_neg hj]
  have hgone : ¬ fs'.Held e := by
    unfold FS.Held
    rw [hfs, if_pos rfl, hzero]
    exact Nat.lt_irrefl 0
  have hheldJ : ∀ j, fs'.Held j ↔ j ≠ e ∧ fs.Held j := by
    intro j
    by_cases hje : j = e
    · simp [hje, hgone]
    · unfold FS.Held
      simp [hje, hkeep j hje]
  constructor
  · intro j hj
    obtain ⟨hje, hj'⟩ := (hheldJ j).mp hj
    obtain ⟨h1, h2, h3⟩ := hother _ fun heq => hje (hu j e hj' he heq)
    rw [hkeep j hje, h1, h2, h3]
    exact h.held j hj'
  · intro i hi
    by_cases hie : i = (fs.inode e).inum
    · rw [hie]
      exact hself
    · obtain ⟨h1, -, h3⟩ := hother i hie
      rw [h1, h3]
      refine h.free i fun j hj heq => ?_
      have hje : j ≠ e := fun hje => hie (by rw [← heq, hje])
      exact hi j ((hheldJ j).mpr ⟨hje, hj⟩) (by rw [hkeep j hje, heq])
  · intro j hj
    have hje : j ≠ e := by
      intro hje
      rw [hje, hunl] at hj
      cases hj
    obtain ⟨h1, h2⟩ := h.lock j hj
    exact ⟨(hheldJ j).mpr ⟨hje, h1⟩, by rw [hkeep j hje]; exact h2⟩
  · have hset : (Finset.univ.filter fun j => fs'.Held j) =
        (Finset.univ.filter fun j => fs.Held j).erase e := by
      ext j
      simp [hheldJ j]
    rw [hset, hinuse, h.inuse, Finset.card_erase_of_mem (by simpa using he)]

theorem Table.of_some (h : Table fs locked s) (he : entryOf fs i = some e) :
    fs.Held e ∧ (fs.inode e).inum = i ∧ s.ref i = (fs.inode e).ref ∧
      s.valid i = (fs.inode e).valid ∧ s.locked i = locked e := by
  obtain ⟨hheld, rfl⟩ := entry_some he
  exact ⟨hheld, rfl, h.held e hheld⟩

theorem Table.of_none (h : Table fs locked s) (he : entryOf fs i = none) :
    s.ref i = 0 ∧ s.locked i = false :=
  h.free i (entry_none he)

/-- No entry is left exactly when all are in use. -/
theorem Table.full_iff (h : Table fs locked s) :
    ninode ≤ s.inuse ↔ ((List.finRange ninode).find? fun e => (fs.inode e).ref = 0) = none := by
  have hall : (Finset.univ.filter fun e => fs.Held e).card = ninode ↔ ∀ e, fs.Held e := by
    have hiff := Finset.card_filter_eq_iff (s := Finset.univ) (p := fun e => fs.Held e)
    rw [Finset.card_fin] at hiff
    simpa using hiff
  have hle : (Finset.univ.filter fun e => fs.Held e).card ≤ ninode :=
    (Finset.card_filter_le _ _).trans (by simp)
  rw [h.inuse, List.find?_eq_none]
  constructor
  · intro hfull e _
    have := hall.mp (by omega) e
    unfold FS.Held at this
    simp
    omega
  · intro hnone
    refine (hall.mpr fun e => ?_).ge
    have := hnone e (List.mem_finRange e)
    unfold FS.Held
    simp at this
    omega

theorem hold_old (h : s.ref i ≠ 0) : s.hold i = s.setRef i (s.ref i + 1) := if_neg h

theorem hold_new (h : s.ref i = 0) :
    s.hold i = { (s.setRef i 1).setValid i false with inuse := s.inuse + 1 } := if_pos h

/-- One more reference to an inode that has an entry. -/
theorem Table.hold (h : Table fs locked s)
    (hu : ∀ e e', fs.Held e → fs.Held e' → (fs.inode e).inum = (fs.inode e').inum → e = e')
    (he : entryOf fs i = some e) :
    Table (fs.set e { fs.inode e with ref := (fs.inode e).ref + 1 }) locked (s.hold i) := by
  obtain ⟨hheld, hi, href, hval, hlock⟩ := h.of_some he
  have hpos : s.ref i ≠ 0 := by
    unfold FS.Held at hheld
    omega
  refine h.put { fs.inode e with ref := (fs.inode e).ref + 1 } hu (.inl ⟨hheld, rfl⟩)
    (Nat.succ_pos _) (inode_set _) ?_ ?_ (fun _ _ => rfl) (fun hl => (h.lock e hl).2) ?_
  · rw [hold_old hpos, href]
    simp [State.setRef, hi, hval, hlock]
  · intro j hj
    have hji : j ≠ i := fun hji => hj (hji.trans hi.symm)
    rw [hold_old hpos]
    simp [State.setRef, hji]
  · rw [hold_old hpos, if_pos hheld]
    rfl

/-- `iget`, with the entry it returns. -/
theorem Table.iget (h : Table fs locked s)
    (hu : ∀ e e', fs.Held e → fs.Held e' → (fs.inode e).inum = (fs.inode e').inum → e = e')
    (i : Nat) :
    (∃ m, fs.iget i = .error m ∧ Sys.iget i s = .error m) ∨
    ∃ e fs', fs.iget i = .ok (e, fs') ∧ Sys.iget i s = .ok ((), s.hold i) ∧ fs'.vol = fs.vol ∧
      (fs'.inode e).inum = i ∧ Table fs' locked (s.hold i) := by
  unfold FS.iget
  cases he : entryOf fs i with
  | some e =>
    obtain ⟨hheld, hi, href, -⟩ := h.of_some he
    have hpos : s.ref i ≠ 0 := by
      unfold FS.Held at hheld
      omega
    unfold entryOf at he
    rw [he]
    refine .inr ⟨e, _, rfl, ?_, rfl, ?_, h.hold hu he⟩
    · unfold Sys.iget
      rw [if_neg fun hc => hpos hc.1]
    · rw [inode_set, if_pos rfl]
      exact hi
  | none =>
    obtain ⟨href, hunl⟩ := h.of_none he
    have hnone := entry_none he
    unfold entryOf at he
    rw [he]
    cases hfind : (List.finRange ninode).find? fun e => (fs.inode e).ref = 0 with
    | none =>
      refine .inl ⟨_, rfl, ?_⟩
      unfold Sys.iget
      rw [if_pos ⟨href, h.full_iff.mpr hfind⟩]
    | some e =>
      have hnot : ¬ ninode ≤ s.inuse := fun hfull => by
        rw [h.full_iff.mp hfull] at hfind
        cases hfind
      have he0 : (fs.inode e).ref = 0 := by simpa using List.find?_some hfind
      have hfree : ¬ fs.Held e := by
        unfold FS.Held
        omega
      have hle : locked e = false := by
        cases hl : locked e with
        | false => rfl
        | true => exact absurd (h.lock e hl).1 hfree
      refine .inr ⟨e, _, rfl, ?_, rfl, ?_, ?_⟩
      · unfold Sys.iget
        rw [if_neg fun hc => hnot hc.2]
      · rw [inode_set, if_pos rfl]
      · refine h.put { fs.inode e with inum := i, ref := 1, valid := false } hu
          (.inr ⟨hfree, hnone⟩) Nat.zero_lt_one (inode_set _) ?_ ?_ (fun _ _ => rfl) ?_ ?_
        · rw [hold_new href]
          simp [State.setRef, State.setValid, hunl, hle]
        · intro j hj
          have hji : j ≠ i := hj
          rw [hold_new href]
          simp [State.setRef, State.setValid, hji]
        · intro hl
          rw [hle] at hl
          cases hl
        · rw [hold_new href, if_neg hfree]

theorem drop_last (h : s.ref i = 1) :
    s.drop i = { (s.setRef i 0).setValid i false with inuse := s.inuse - 1 } := if_pos h

theorem drop_one (h : s.ref i ≠ 1) : s.drop i = s.setRef i (s.ref i - 1) := if_neg h

/-- One reference less, and what is left of the entry. -/
theorem Table.drop (ip : Inode) (h : Table fs locked s)
    (hu : ∀ e e', fs.Held e → fs.Held e' → (fs.inode e).inum = (fs.inode e').inum → e = e')
    (he : entryOf fs i = some e) (hunl : (fs.inode e).ref = 1 → locked e = false)
    (hinum : ip.inum = i) (href : ip.ref = (fs.inode e).ref - 1)
    (hval : (fs.inode e).ref ≠ 1 → ip.valid = (fs.inode e).valid)
    (hfs : ∀ j, fs'.inode j = if j = e then ip else fs.inode j) :
    Table fs' locked (s.drop i) := by
  obtain ⟨hheld, hi, hr, hv, hl⟩ := h.of_some he
  by_cases h1 : (fs.inode e).ref = 1
  · have hs1 : s.ref i = 1 := hr.trans h1
    refine h.erase hu hheld (hunl h1) (by omega) hfs ?_ ?_ ?_
    · rw [drop_last hs1, hi]
      simp [State.setRef, State.setValid, hl, hunl h1]
    · intro j hj
      have hji : j ≠ i := fun hji => hj (hji.trans hi.symm)
      rw [drop_last hs1]
      simp [State.setRef, State.setValid, hji]
    · rw [drop_last hs1]
  · have hs1 : s.ref i ≠ 1 := fun hs1 => h1 (hr.symm.trans hs1)
    have hpos : 0 < (fs.inode e).ref := hheld
    refine h.put ip hu (.inl ⟨hheld, hi.trans hinum.symm⟩) (by omega) hfs ?_ ?_ (fun _ _ => rfl) ?_ ?_
    · rw [drop_one hs1, hinum, hr, href, hval h1]
      simp [State.setRef, hv, hl]
    · intro j hj
      have hji : j ≠ i := fun hji => hj (hji.trans hinum.symm)
      rw [drop_one hs1]
      simp [State.setRef, hji]
    · intro hlk
      rw [hval h1]
      exact (h.lock e hlk).2
    · rw [drop_one hs1, if_pos hheld]
      rfl

/-- The sleep-lock of an entry, taken after `ilock` has loaded the inode, or let go. -/
theorem Table.setLock (ip : Inode) (h : Table fs locked s)
    (hu : ∀ e e', fs.Held e → fs.Held e' → (fs.inode e).inum = (fs.inode e').inum → e = e')
    (he : entryOf fs i = some e) (b : Bool) (hinum : ip.inum = i) (href : ip.ref = (fs.inode e).ref)
    (hb : b → ip.valid) (hfs : ∀ j, fs'.inode j = if j = e then ip else fs.inode j)
    (hs : s'.ref = s.ref ∧ s'.inuse = s.inuse ∧ s'.valid = Function.update s.valid i ip.valid ∧
      s'.locked = Function.update s.locked i b) :
    Table fs' (Function.update locked e b) s' := by
  obtain ⟨hheld, hi, hr, -, -⟩ := h.of_some he
  obtain ⟨h1, h2, h3, h4⟩ := hs
  have hpos : 0 < (fs.inode e).ref := hheld
  refine h.put ip hu (.inl ⟨hheld, hi.trans hinum.symm⟩) (by omega) hfs ?_ ?_ ?_ ?_ ?_
  · rw [h1, h3, h4, hinum, hr, href]
    simp
  · intro j hj
    have hji : j ≠ i := fun hji => hj (hji.trans hinum.symm)
    simp [h1, h3, h4, hji]
  · intro j hj
    simp [hj]
  · intro hl
    rw [Function.update_self] at hl
    exact hb hl
  · rw [h2, if_pos hheld]

/-- The table does not see what is on the disk or in the copy of an entry. -/
theorem Table.copy (h : Table fs locked s) {v' : Vol} {d : Dinode} {n : Node} :
    Table ({ fs with vol := v' }.set e { fs.inode e with copy := d }) locked (s.setNode i n) := by
  have hsame : ∀ j, (({ fs with vol := v' }.set e { fs.inode e with copy := d }).inode j).ref =
      (fs.inode j).ref ∧ (({ fs with vol := v' }.set e { fs.inode e with copy := d }).inode j).inum =
      (fs.inode j).inum ∧ (({ fs with vol := v' }.set e { fs.inode e with copy := d }).inode j).valid =
      (fs.inode j).valid := by
    intro j
    rw [inode_set]
    split
    · next hj => rw [hj]; exact ⟨rfl, rfl, rfl⟩
    · exact ⟨rfl, rfl, rfl⟩
  have hheld : ∀ j, ({ fs with vol := v' }.set e { fs.inode e with copy := d }).Held j ↔ fs.Held j := by
    intro j
    unfold FS.Held
    rw [(hsame j).1]
  constructor
  · intro j hj
    obtain ⟨h1, h2, h3⟩ := hsame j
    rw [h1, h2, h3]
    exact h.held j ((hheld j).mp hj)
  · intro j hj
    refine h.free j fun k hk => ?_
    rw [← (hsame k).2.1]
    exact hj k ((hheld k).mpr hk)
  · intro j hj
    obtain ⟨h1, h2⟩ := h.lock j hj
    exact ⟨(hheld j).mpr h1, by rw [(hsame j).2.2]; exact h2⟩
  · simp only [hheld]
    exact h.inuse

/-! The inodes. -/

/-- A call on the inode `i` of the disk, with its new value. -/
theorem Nodes.touch {n : Node} (h : Nodes sb v node) (ht : Touched sb i v v')
    (htype : n.type = (v'.dinode sb i).type)
    (hnode : (v'.dinode sb i).type ≠ 0 → n = nodeAt v' (v'.dinode sb i)) :
    Nodes sb v' (Function.update node i n) := by
  constructor
  · intro j hj
    by_cases hji : j = i
    · rw [hji, Function.update_self]
      exact htype
    · rw [Function.update_of_ne hji, ht.dinode j hj hji]
      exact h.type j hj
  · intro j hj hne
    by_cases hji : j = i
    · rw [hji] at hne ⊢
      rw [Function.update_self]
      exact hnode hne
    · rw [ht.dinode j hj hji] at hne ⊢
      rw [Function.update_of_ne hji, h.node j hj hne]
      unfold nodeAt
      rw [ht.content j hj hji hne]

/-! The calls, one by one. -/

theorem hold_ninodes : (s.hold i).ninodes = s.ninodes := by
  unfold State.hold
  split <;> rfl

theorem hold_node : (s.hold i).node = s.node := by
  unfold State.hold
  split <;> rfl

theorem drop_ninodes : (s.drop i).ninodes = s.ninodes := by
  unfold State.drop
  split <;> rfl

theorem drop_node : (s.drop i).node = s.node := by
  unfold State.drop
  split <;> rfl

namespace Abs
variable {d : Disk}

theorem iget (h : Abs sb d s) :
    Matches (Abs sb) ((Op.iget i).onDisk sb d) ((Op.iget i).onArrays s) := by
  simp only [Op.onDisk, Op.onArrays, h.ninodes]
  by_cases hi : i < sb.ninodes
  · rw [if_pos hi, if_pos hi]
    obtain ⟨m, h1, h2⟩ | ⟨e, fs', h1, h2, hvol, -, htab⟩ := h.table.iget h.inv.unique i
    · rw [h1, h2]
      rfl
    · rw [h1, h2]
      refine ⟨rfl, h.inv.iget hi h1, by rw [hold_ninodes, h.ninodes], ?_, htab⟩
      rw [hold_node]
      exact hvol ▸ h.nodes
  · rw [if_neg hi, if_neg hi]
    rfl

theorem freeInum_eq (h : Abs sb d s) : d.fs.freeInum sb = s.freeInum := by
  unfold FS.freeInum State.freeInum
  rw [h.ninodes]
  refine List.find?_congr fun j hj => ?_
  obtain ⟨k, hk, rfl⟩ := List.mem_map.mp hj
  have hlt : k+1 < sb.ninodes := by
    have := List.mem_range.mp hk
    omega
  rw [h.nodes.type _ hlt]

theorem ialloc (hL : sb.Layout) (h : Abs sb d s) (type : Int16) :
    Matches (Abs sb) ((Op.ialloc type).onDisk sb d) ((Op.ialloc type).onArrays s) := by
  simp only [Op.onDisk, Op.onArrays]
  cases hf : s.freeInum with
  | none =>
    have hdisk : d.fs.ialloc sb type = .ok (none, d.fs) := by
      unfold FS.ialloc
      rw [h.freeInum_eq, hf]
    have harr : Sys.ialloc type s = .ok (none, s) := by
      unfold Sys.ialloc
      rw [hf]
    rw [hdisk, harr]
    exact ⟨rfl, h⟩
  | some j =>
    have hfree : (d.fs.vol.dinode sb j).type = 0 := by
      rw [← h.freeInum_eq] at hf
      simpa using List.find?_some hf
    have hlt : j < sb.ninodes := by
      rw [← h.freeInum_eq] at hf
      obtain ⟨k, hk, rfl⟩ := List.mem_map.mp (List.mem_of_find?_eq_some hf)
      have := List.mem_range.mp hk
      omega
    obtain ⟨htouch, hself⟩ := touched_ialloc hL h.inv.vol hlt hfree type
    have hdisk : d.fs.ialloc sb type = ((FS.mk (d.fs.vol.write (sb.iblock j)
        (Dinode.clear (d.fs.vol.disk (sb.iblock j)) (64*(j % ipb)) type)) d.fs.inode).iget j).map
          fun r => (some r.1, r.2) := by
      unfold FS.ialloc
      rw [h.freeInum_eq, hf]
    have harr : Sys.ialloc type s =
        (Sys.iget j (s.setNode j (.fresh type))).map fun r => (some j, r.2) := by
      unfold Sys.ialloc
      rw [hf]
    generalize d.fs.vol.write (sb.iblock j)
      (Dinode.clear (d.fs.vol.disk (sb.iblock j)) (64*(j % ipb)) type) = v' at htouch hself hdisk
    have htab : Table ⟨v', d.fs.inode⟩ d.locked (s.setNode j (.fresh type)) :=
      ⟨h.table.held, h.table.free, h.table.lock, h.table.inuse⟩
    obtain ⟨m, h1, h2⟩ | ⟨e, fs', h1, h2, hvol, hinum, htab'⟩ := htab.iget h.inv.unique j
    · rw [hdisk, harr, h1, h2]
      rfl
    · have hinv : FsInv sb fs' := h.inv.ialloc (r := some e) hL (by rw [hdisk, h1]; rfl)
      rw [hdisk, harr, h1, h2]
      refine ⟨congrArg some hinum, hinv, ?_, ?_, htab'⟩
      · rw [hold_ninodes]
        exact h.ninodes
      · rw [hold_node]
        refine hvol ▸ h.nodes.touch htouch ?_ fun _ => ?_
        · rw [hself]
          rfl
        · rw [hself]
          rfl

theorem idup (h : Abs sb d s) :
    Matches (Abs sb) ((Op.idup i).onDisk sb d) ((Op.idup i).onArrays s) := by
  simp only [Op.onDisk, Op.onArrays, onEntry]
  cases he : entryOf d.fs i with
  | none =>
    rw [if_pos (h.table.of_none he).1]
    rfl
  | some e =>
    obtain ⟨hheld, -, href, -⟩ := h.table.of_some he
    have hpos : s.ref i ≠ 0 := by
      unfold FS.Held at hheld
      omega
    rw [if_neg hpos]
    refine ⟨rfl, ?_, by rw [hold_ninodes, h.ninodes], by rw [hold_node]; exact h.nodes,
      h.table.hold h.inv.unique he⟩
    exact h.inv.touch hheld (Touched.refl h.inv.vol) rfl fun _ hv => h.inv.copy e ⟨hheld, hv⟩

/-- `ilock` loads the inode of an entry that is not valid. -/
theorem ilock (h : Abs sb d s) :
    Matches (Abs sb) ((Op.ilock i).onDisk sb d) ((Op.ilock i).onArrays s) := by
  simp only [Op.onDisk, Op.onArrays, onEntry, Sys.ilock]
  cases he : entryOf d.fs i with
  | none =>
    rw [if_pos (by have := (h.table.of_none he).1; omega)]
    rfl
  | some e =>
    obtain ⟨hheld, hi, href, hval, hlock⟩ := h.table.of_some he
    have hpos : 0 < (d.fs.inode e).ref := hheld
    have hlt : i < sb.ninodes := hi ▸ h.inv.inum e hheld
    rw [if_neg (by omega), hlock]
    dsimp only
    cases hl : d.locked e with
    | true => rfl
    | false =>
      simp only [Bool.false_eq_true, if_false, hval]
      have hone : ¬ (d.fs.inode e).ref < 1 := by omega
      cases hv : (d.fs.inode e).valid with
      | true =>
        have hdisk : d.fs.ilock sb e = .ok d.fs := by
          unfold FS.ilock
          rw [if_neg hone, if_pos hv]
        rw [hdisk]
        refine ⟨rfl, h.inv, h.ninodes, h.nodes, ?_⟩
        refine h.table.setLock (d.fs.inode e) h.inv.unique he true hi rfl (fun _ => hv) ?_ ?_
        · intro j
          split
          · next hj => rw [hj]
          · rfl
        · refine ⟨rfl, rfl, ?_, rfl⟩
          rw [← hval, Function.update_eq_self]
          rfl
      | false =>
        have hnt : ¬ (d.fs.inode e).valid = true := by rw [hv]; exact Bool.false_ne_true
        simp only [Bool.false_eq_true, if_false]
        rw [h.nodes.type i hlt]
        by_cases ht : (d.fs.vol.dinode sb i).type = 0
        · have hdisk : d.fs.ilock sb e = .error "ilock: no type" := by
            unfold FS.ilock
            rw [if_neg hone, if_neg hnt, hi]
            exact if_pos ht
          rw [hdisk, if_pos ht]
          rfl
        · have hdisk : d.fs.ilock sb e = .ok (d.fs.set e
              { d.fs.inode e with valid := true, copy := d.fs.vol.dinode sb i }) := by
            unfold FS.ilock
            rw [if_neg hone, if_neg hnt, hi]
            exact if_neg ht
          have hinv := h.inv.ilock hdisk
          rw [hdisk, if_neg ht]
          refine ⟨rfl, hinv, h.ninodes, h.nodes, ?_⟩
          exact h.table.setLock
            { d.fs.inode e with valid := true, copy := d.fs.vol.dinode sb i } h.inv.unique he true
            hi rfl (fun _ => rfl) (inode_set _) ⟨rfl, rfl, rfl, rfl⟩

theorem iunlock (h : Abs sb d s) :
    Matches (Abs sb) ((Op.iunlock i).onDisk sb d) ((Op.iunlock i).onArrays s) := by
  simp only [Op.onDisk, Op.onArrays, onEntry, Sys.iunlock]
  cases he : entryOf d.fs i with
  | none =>
    rw [if_pos (.inl (h.table.of_none he).2)]
    rfl
  | some e =>
    obtain ⟨hheld, hi, href, hval, hlock⟩ := h.table.of_some he
    have hpos : 0 < (d.fs.inode e).ref := hheld
    rw [hlock]
    dsimp only
    cases hl : d.locked e with
    | false =>
      rw [FS.iunlock, if_pos (.inl hl), if_pos (.inl rfl)]
      rfl
    | true =>
      have hdisk : d.fs.iunlock d.locked e = .ok d.fs := by
        unfold FS.iunlock
        rw [if_neg]
        simp only [hl, Bool.true_eq_false, false_or]
        omega
      have hheld' : ¬ (true = false ∨ s.ref i < 1) := by
        simp only [Bool.true_eq_false, false_or]
        omega
      rw [if_neg hheld', hdisk]
      refine ⟨rfl, h.inv, h.ninodes, h.nodes, ?_⟩
      refine h.table.setLock (d.fs.inode e) h.inv.unique he false hi rfl (by simp) ?_ ?_
      · intro j
        split
        · next hj => rw [hj]
        · rfl
      · refine ⟨rfl, rfl, ?_, rfl⟩
        rw [← hval, Function.update_eq_self]
        rfl

/-- What the caller of a locked inode knows. -/
theorem of_locked (h : Abs sb d s) (he : entryOf d.fs i = some e) (hv : (d.fs.inode e).valid) :
    d.fs.Locked e ∧ (d.fs.inode e).inum = i ∧ i < sb.ninodes ∧
      (d.fs.inode e).copy = d.fs.vol.dinode sb i ∧ (d.fs.vol.dinode sb i).type ≠ 0 ∧
      s.node i = nodeAt d.fs.vol (d.fs.vol.dinode sb i) := by
  obtain ⟨hheld, rfl, -⟩ := h.table.of_some he
  obtain ⟨hc, ht⟩ := h.inv.copy e ⟨hheld, hv⟩
  have hlt := h.inv.inum e hheld
  exact ⟨⟨hheld, hv⟩, rfl, hlt, hc, hc ▸ ht, h.nodes.node _ hlt (hc ▸ ht)⟩

theorem iput (hL : sb.Layout) (h : Abs sb d s) :
    Matches (Abs sb) ((Op.iput i).onDisk sb d) ((Op.iput i).onArrays s) := by
  simp only [Op.onDisk, Op.onArrays, onEntry]
  cases he : entryOf d.fs i with
  | none =>
    rw [if_pos (.inl (h.table.of_none he).1)]
    rfl
  | some e =>
    obtain ⟨hheld, hi, href, hval, hlock⟩ := h.table.of_some he
    have hpos : 0 < (d.fs.inode e).ref := hheld
    by_cases hmis : (d.fs.inode e).ref = 1 ∧ d.locked e = true
    · rw [if_pos (.inr ⟨href.trans hmis.1, hlock.trans hmis.2⟩)]
      dsimp only
      rw [if_pos hmis]
      rfl
    · have harr : ¬ (s.ref i = 0 ∨ s.ref i = 1 ∧ s.locked i = true) := by
        rw [href, hlock]
        intro hbad
        cases hbad with
        | inl h0 => omega
        | inr h1 => exact hmis h1
      have hunl : (d.fs.inode e).ref = 1 → d.locked e = false := by
        intro h1
        cases hl : d.locked e with
        | false => rfl
        | true => exact absurd ⟨h1, hl⟩ hmis
      rw [if_neg harr]
      dsimp only
      rw [if_neg hmis]
      unfold Sys.iput
      by_cases hlast : (d.fs.inode e).ref = 1 ∧ (d.fs.inode e).valid = true ∧
          (d.fs.inode e).copy.nlink = 0
      · obtain ⟨-, -, hlt, hc, ht, hnode⟩ := h.of_locked he hlast.2.1
        obtain ⟨v', htr, -, -, htouch⟩ := touched_itrunc hL h.inv.vol hlt ht
        have hdisk : d.fs.iput sb e = .ok (FS.set
            ⟨Fs.iupdate sb v' i { (d.fs.vol.dinode sb i).emptied with type := 0 }, d.fs.inode⟩ e
            ⟨(d.fs.inode e).inum, 0, false, { (d.fs.vol.dinode sb i).emptied with type := 0 }⟩) := by
          unfold FS.iput
          simp only
          rw [if_pos hlast, hc, hi, htr]
          rfl
        have hfreed : s.ref i = 1 ∧ s.valid i = true ∧ (s.node i).nlink = 0 := by
          refine ⟨href.trans hlast.1, hval.trans hlast.2.1, ?_⟩
          rw [hnode]
          exact hc ▸ hlast.2.2
        rw [if_pos hfreed, hdisk]
        refine ⟨rfl, h.inv.iput hL hheld hdisk, ?_, ?_, ?_⟩
        · rw [drop_ninodes]
          exact h.ninodes
        · rw [drop_node]
          have hzero : ((Fs.iupdate sb v' i { (d.fs.vol.dinode sb i).emptied with type := 0 }).dinode
              sb i).type = 0 := by rw [dinode_iupdate, if_pos rfl]
          exact h.nodes.touch htouch hzero.symm fun hne => absurd hzero hne
        · have htab : Table d.fs d.locked (s.setNode i (s.node i).freed) :=
            ⟨h.table.held, h.table.free, h.table.lock, h.table.inuse⟩
          refine htab.drop ⟨(d.fs.inode e).inum, 0, false,
            { (d.fs.vol.dinode sb i).emptied with type := 0 }⟩ h.inv.unique he hunl hi ?_
            (fun h1 => absurd hlast.1 h1) (inode_set _)
          rw [hlast.1]
      · have hdisk : d.fs.iput sb e =
            .ok (d.fs.set e { d.fs.inode e with ref := (d.fs.inode e).ref - 1 }) := by
          unfold FS.iput
          simp only
          rw [if_neg hlast]
          rfl
        have hkeep : ¬ (s.ref i = 1 ∧ s.valid i = true ∧ (s.node i).nlink = 0) := by
          intro hf
          have hv := hval.symm.trans hf.2.1
          obtain ⟨-, -, -, hc, -, hnode⟩ := h.of_locked he hv
          refine hlast ⟨href.symm.trans hf.1, hv, ?_⟩
          rw [hc]
          have hn := hf.2.2
          rw [hnode] at hn
          exact hn
        rw [if_neg hkeep, hdisk]
        refine ⟨rfl, h.inv.iput hL hheld hdisk, ?_, ?_, ?_⟩
        · rw [drop_ninodes]
          exact h.ninodes
        · rw [drop_node]
          exact h.nodes
        · exact h.table.drop { d.fs.inode e with ref := (d.fs.inode e).ref - 1 }
            h.inv.unique he hunl hi rfl (fun _ => rfl) (inode_set _)

/-- A call that needs the lock. -/
theorem underLock {α : Type} {f : Disk → Fin ninode → Except String (α × Disk)} {m : K α}
    (h : Abs sb d s) (hf : ∀ e, entryOf d.fs i = some e → d.locked e = true →
      Matches (Abs sb) (f d e) (m s)) :
    Matches (Abs sb) (onLocked i f d) (Sys.underLock i m s) := by
  unfold onLocked onEntry Sys.underLock
  cases he : entryOf d.fs i with
  | none =>
    rw [(h.table.of_none he).2]
    rfl
  | some e =>
    rw [(h.table.of_some he).2.2.2.2]
    dsimp only
    cases hl : d.locked e with
    | false => rfl
    | true => exact hf e he hl

theorem inode (h : Abs sb d s) :
    Matches (Abs sb) ((Op.inode i).onDisk sb d) ((Op.inode i).onArrays s) := by
  refine h.underLock fun e he hl => ?_
  obtain ⟨-, -, -, hc, -, hnode⟩ := h.of_locked he (h.table.lock e hl).2
  refine ⟨?_, h⟩
  rw [hc, hnode]

/-- A call that leaves a new inode `dn` on the disk and in the copy of its entry. -/
theorem write_back {dn : Dinode} {n : Node} (h : Abs sb d s)
    (hinv : FsInv sb ({ d.fs with vol := v' }.set e { d.fs.inode e with copy := dn }))
    (htouch : Touched sb i d.fs.vol v') (hself : v'.dinode sb i = dn) (hn : n = nodeAt v' dn) :
    Abs sb { d with fs := { d.fs with vol := v' }.set e { d.fs.inode e with copy := dn } }
      (s.setNode i n) := by
  have hnodes : Nodes sb v' (Function.update s.node i n) := by
    refine h.nodes.touch htouch ?_ fun _ => ?_
    · rw [hn, hself]
      rfl
    · rw [hn, hself]
  exact ⟨hinv, h.ninodes, hnodes, h.table.copy⟩

/-- The callers' own changes. -/
def linked (dn : Dinode) (major minor nlink : Int16) : Dinode :=
  { dn with major := major, minor := minor, nlink := nlink }

theorem setLink (hL : sb.Layout) (h : Abs sb d s) (major minor nlink : Int16) :
    Matches (Abs sb) ((Op.setLink i major minor nlink).onDisk sb d)
      ((Op.setLink i major minor nlink).onArrays s) := by
  refine h.underLock fun e he hl => ?_
  obtain ⟨hlk, hi, hlt, hc, ht, hnode⟩ := h.of_locked he (h.table.lock e hl).2
  have hset : d.fs.setLink sb e major minor nlink = FS.set
      ⟨Fs.iupdate sb d.fs.vol i (linked (d.fs.vol.dinode sb i) major minor nlink), d.fs.inode⟩ e
      { d.fs.inode e with copy := linked (d.fs.vol.dinode sb i) major minor nlink } := by
    unfold FS.setLink linked
    simp only [hc, hi]
  have hinv := h.inv.setLink hL hlk major minor nlink
  obtain ⟨htouch, hself⟩ := touched_fields (d := linked (d.fs.vol.dinode sb i) major minor nlink) hL
    h.inv.vol hlt (fun _ => rfl) rfl rfl
  obtain ⟨-, hdisk⟩ := inode_write_frame (v := d.fs.vol) hL hlt
    (Dinode.store (d.fs.vol.disk (sb.iblock i)) (64*(i % ipb))
      (linked (d.fs.vol.dinode sb i) major minor nlink))
  have hcont : content (Fs.iupdate sb d.fs.vol i (linked (d.fs.vol.dinode sb i) major minor nlink))
      (linked (d.fs.vol.dinode sb i) major minor nlink) = content d.fs.vol (d.fs.vol.dinode sb i) :=
    content_congr (h.inv.vol.files i hlt ht) rfl fun bn hbn h0 =>
      ⟨lookup_same h.inv.vol.forest hdisk hlt ht (fun _ => rfl) hbn,
        hdisk _ (lookup_isData h.inv.vol.forest hlt ht hbn h0).1⟩
  rw [hset] at hinv
  refine ⟨rfl, ?_⟩
  dsimp only
  rw [hset]
  refine h.write_back hinv htouch hself ?_
  unfold nodeAt Node.link
  rw [hcont, hnode]
  rfl

theorem itrunc (hL : sb.Layout) (h : Abs sb d s) :
    Matches (Abs sb) ((Op.itrunc i).onDisk sb d) ((Op.itrunc i).onArrays s) := by
  refine h.underLock fun e he hl => ?_
  obtain ⟨hlk, hi, hlt, hc, ht, hnode⟩ := h.of_locked he (h.table.lock e hl).2
  obtain ⟨v', htr, htouch, hself, -⟩ := touched_itrunc hL h.inv.vol hlt ht
  have hdisk : Fs.itrunc sb d.fs.vol (d.fs.inode e).inum (d.fs.inode e).copy =
      .ok ((d.fs.vol.dinode sb i).emptied, v') := by rw [hi, hc, htr]
  rw [hdisk]
  refine ⟨rfl, h.write_back (h.inv.itrunc hL hlk hdisk) htouch hself ?_⟩
  rw [hnode]
  rfl

theorem readi (hL : sb.Layout) (h : Abs sb d s) (off n : UInt32) :
    Matches (Abs sb) ((Op.readi i off n).onDisk sb d) ((Op.readi i off n).onArrays s) := by
  refine h.underLock fun e he hl => ?_
  obtain ⟨hlk, hi, hlt, hc, ht, hnode⟩ := h.of_locked he (h.table.lock e hl).2
  obtain ⟨r, out, heq, hout⟩ := h.inv.readi_eq hL hlk kernelDst off.toNat_lt n.toNat_lt
  obtain ⟨hbytes, -⟩ := hout fun _ _ => rfl
  have hlen : (s.node i).data.length = (d.fs.inode e).copy.size.toNat := by
    rw [hnode, ← hc]
    exact content_length
  rw [heq]
  refine ⟨?_, ?_⟩
  · dsimp only
    rw [hbytes, hlen, hnode, hc]
    rfl
  · dsimp only
    rw [fs_eta]
    exact h


end Abs

/-! `writei`: the room left on the disk decides how far it gets. -/

/-- The room that stops a write at the block `b`. -/
theorem fits_short {size off k b : Nat} (hk : off + k = b*bsize) (hs : size ≤ b*bsize) :
    fits size (b - blocks size) off = k := by
  have hb : blocks size ≤ b := by
    unfold blocks
    simp only [bsize] at *
    omega
  unfold fits
  rw [Nat.add_sub_cancel' hb]
  omega

theorem fits_whole {size off n : Nat} (ho : off ≤ size) : n ≤ fits size n off := by
  have hb : size ≤ blocks size*bsize := by
    unfold blocks
    simp only [bsize]
    omega
  unfold fits
  rw [Nat.add_mul]
  simp only [bsize] at *
  omega

/-- Room for the next write, and for those after it. -/
def nextRoom (r : Nat) (room : Nat → Nat) : Nat → Nat
  | 0 => r
  | k+1 => room k

/-- A write of at most `n` bytes that gets as far as the disk lets it. -/
theorem room_for {size off n k : Nat} (ho : off ≤ size) (hk : k ≤ n)
    (hshort : k < n → ∃ b, off + k = b*bsize ∧ size ≤ b*bsize) :
    ∃ r, min n (fits size r off) = k := by
  by_cases hkn : k < n
  · obtain ⟨b, hb, hbs⟩ := hshort hkn
    refine ⟨b - blocks size, ?_⟩
    rw [fits_short hb hbs]
    omega
  · have hwhole := fits_whole (n := n) ho
    exact ⟨n, by omega⟩

section ArrayWrite
variable {l : List UInt8} {off k : Nat}

theorem writei_refused (h : Refused (s.node i).data.length off l.length) :
    Sys.writei i l off s = .ok (-1, s) := by
  unfold Sys.writei
  unfold Refused at h
  dsimp only
  split
  · rfl
  · rw [if_pos (by omega)]

theorem writei_stores (h : ¬ Refused (s.node i).data.length off l.length)
    (hk : min l.length (fits (s.node i).data.length (s.room 0) off) = k) :
    Sys.writei i l off s = .ok ((k : Int),
      { s.setNode i ((s.node i).write off (l.take k)) with room := fun j => s.room (j+1) }) := by
  unfold Sys.writei
  unfold Refused at h
  dsimp only
  rw [if_neg (by omega), if_neg (by omega), hk]

end ArrayWrite

namespace Abs
variable {d : Disk}

theorem writei_locked (hL : sb.Layout) (h : Abs sb d s) (he : entryOf d.fs i = some e)
    (hl : d.locked e = true) (src : Buf) (off n : UInt32) :
    Simulates (Abs sb) State.withRoom
      ((d.fs.write sb e src off.toNat n.toNat).map fun r => (r.1, { d with fs := r.2 }))
      fun o => Sys.writei i ((List.range n.toNat).map src) off.toNat (s.withRoom o) := by
  obtain ⟨hlk, hi, hlt, hc, ht, hnode⟩ := h.of_locked he (h.table.lock e hl).2
  have hsize : (s.node i).data.length = (d.fs.vol.dinode sb i).size.toNat := by
    rw [hnode]
    exact content_length
  have hlen : ((List.range n.toNat).map src).length = n.toNat := by simp
  have hoff := off.toNat_lt
  have hn := n.toNat_lt
  unfold FS.write
  by_cases hrej : Refused (d.fs.vol.dinode sb i).size.toNat off.toNat n.toNat
  · have hdisk : Fs.writei sb d.fs.vol (d.fs.inode e).inum (d.fs.inode e).copy src kernelSrc
        off.toNat n.toNat = .ok (-1, (d.fs.inode e).copy, d.fs.vol) :=
      writei_reject hoff hn (hc ▸ hrej)
    rw [hdisk]
    refine ⟨s, ?_, fun o => ⟨o, writei_refused ?_⟩⟩
    · dsimp only
      rw [fs_eta]
      exact h
    · rw [hlen]
      exact hsize ▸ hrej
  · have hrej' := hrej
    unfold Refused at hrej'
    have hend : off.toNat + n.toNat ≤ maxfile*bsize := by omega
    obtain ⟨k, d', v', heq, hk, htouch, hself, -, -, hcont⟩ :=
      writei_call hL h.inv.vol hlt ht src kernelSrc (by omega) hend
    obtain ⟨⟨f1, f2, f3, f4⟩, hshort⟩ := writei_short hL h.inv.vol hlt ht (by omega) (by omega) heq
    obtain ⟨-, hbytes⟩ := hcont fun _ _ => rfl
    have hdisk : Fs.writei sb d.fs.vol (d.fs.inode e).inum (d.fs.inode e).copy src kernelSrc
        off.toNat n.toNat = .ok ((k : Int), d', v') := by rw [hi, hc, heq]
    have htake : ((List.range n.toNat).map src).take k = (List.range k).map src := by
      rw [← List.map_take, List.take_range, Nat.min_eq_left hk]
    obtain ⟨r, hr⟩ := room_for (show off.toNat ≤ (d.fs.vol.dinode sb i).size.toNat by omega) hk hshort
    rw [hdisk]
    refine ⟨s.setNode i ((s.node i).write off.toNat ((List.range k).map src)),
      h.write_back (h.inv.writei hL hlk hoff hn hdisk) htouch hself ?_, fun o => ⟨nextRoom r o, ?_⟩⟩
    · unfold nodeAt Node.write
      rw [hbytes, f1, f2, f3, f4, hnode]
      rfl
    · rw [← htake]
      exact writei_stores (by rw [hlen]; exact hsize.symm ▸ hrej) (by rw [hlen]; exact hsize.symm ▸ hr)

theorem writei (hL : sb.Layout) (h : Abs sb d s) (src : Buf) (off n : UInt32) :
    Simulates (Abs sb) State.withRoom ((Op.writei i src off n).onDisk sb d)
      fun o => (Op.writei i src off n).onArrays (s.withRoom o) := by
  have hno : s.locked i = false → ∃ o, (Op.writei i src off n).onArrays (s.withRoom o) =
      .error misuse := by
    intro hf
    refine ⟨fun _ => 0, if_neg ?_⟩
    change ¬ s.locked i = true
    rw [hf]
    exact Bool.false_ne_true
  have hyes : s.locked i = true → ∀ o, (Op.writei i src off n).onArrays (s.withRoom o) =
      Sys.writei i ((List.range n.toNat).map src) off.toNat (s.withRoom o) :=
    fun ht o => if_pos ht
  simp only [Op.onDisk, onLocked, onEntry]
  cases he : entryOf d.fs i with
  | none => exact hno (h.table.of_none he).2
  | some e =>
    have hlock := (h.table.of_some he).2.2.2.2
    dsimp only
    cases hl : d.locked e with
    | false => exact hno (hlock.trans hl)
    | true =>
      simp only [hyes (hlock.trans hl), if_true]
      exact h.writei_locked hL he hl src off n

end Abs

/-! Calls other than `writei` do not look at the room. -/

section Room
variable (o : Nat → Nat)

theorem hold_withRoom : (s.withRoom o).hold i = (s.hold i).withRoom o := by
  by_cases h : s.ref i = 0
  · rw [hold_new h]
    exact if_pos h
  · rw [hold_old h]
    exact if_neg h

theorem drop_withRoom : (s.withRoom o).drop i = (s.drop i).withRoom o := by
  by_cases h : s.ref i = 1
  · rw [drop_last h]
    exact if_pos h
  · rw [drop_one h]
    exact if_neg h

theorem iget_withRoom : Sys.iget i (s.withRoom o) =
    (Sys.iget i s).map fun r => (r.1, r.2.withRoom o) := by
  unfold Sys.iget
  rw [hold_withRoom]
  change (if s.ref i = 0 ∧ ninode ≤ s.inuse then _ else _) = _
  split <;> rfl

theorem underLock_withRoom {α : Type} {m : K α}
    (h : m (s.withRoom o) = (m s).map fun r => (r.1, r.2.withRoom o)) :
    Sys.underLock i m (s.withRoom o) =
      (Sys.underLock i m s).map fun r => (r.1, r.2.withRoom o) := by
  unfold Sys.underLock
  rw [h]
  change (if s.locked i = true then _ else _) = _
  split <;> rfl

theorem onArrays_withRoom {c : Op} (hc : ∀ i src off n, c ≠ .writei i src off n) :
    c.onArrays (s.withRoom o) = (c.onArrays s).map fun r => (r.1, r.2.withRoom o) := by
  cases c with
  | writei i src off n => exact absurd rfl (hc i src off n)
  | ialloc type =>
    have hfree : (s.withRoom o).freeInum = s.freeInum := rfl
    simp only [Op.onArrays, Sys.ialloc, hfree]
    cases s.freeInum with
    | none => rfl
    | some j =>
      dsimp only
      rw [show (s.withRoom o).setNode j (.fresh type) = (s.setNode j (.fresh type)).withRoom o from rfl,
        iget_withRoom]
      cases Sys.iget j (s.setNode j (.fresh type)) with
      | error m => rfl
      | ok r => rfl
  | iget i =>
    simp only [Op.onArrays, iget_withRoom]
    change (if i < s.ninodes then _ else _) = _
    split <;> rfl
  | idup i =>
    simp only [Op.onArrays, Sys.idup, hold_withRoom]
    change (if s.ref i = 0 then _ else _) = _
    split <;> rfl
  | ilock i =>
    simp only [Op.onArrays, Sys.ilock]
    change (if s.ref i < 1 then _ else if s.locked i = true then _ else if s.valid i = true then _
      else if (s.node i).type = 0 then _ else _) = _
    split
    · rfl
    · split
      · rfl
      · split
        · rfl
        · split <;> rfl
  | iunlock i =>
    simp only [Op.onArrays, Sys.iunlock]
    change (if s.locked i = false ∨ s.ref i < 1 then _ else _) = _
    split <;> rfl
  | iput i =>
    have hput : Sys.iput i (s.withRoom o) = (Sys.iput i s).map fun r => (r.1, r.2.withRoom o) := by
      unfold Sys.iput
      rw [drop_withRoom]
      change (if s.ref i = 1 ∧ s.valid i = true ∧ (s.node i).nlink = 0 then
        Except.ok ((), ((s.setNode i (s.node i).freed).withRoom o).drop i) else _) = _
      rw [drop_withRoom]
      split <;> rfl
    simp only [Op.onArrays, hput]
    change (if s.ref i = 0 ∨ s.ref i = 1 ∧ s.locked i = true then _ else _) = _
    split <;> rfl
  | inode i => exact underLock_withRoom o rfl
  | setLink i major minor nlink => exact underLock_withRoom o rfl
  | itrunc i => exact underLock_withRoom o rfl
  | readi i off n => exact underLock_withRoom o rfl

end Room

/-- Every call is simulated. -/
theorem Abs.call {d : Disk} (hL : sb.Layout) (c : Op) (h : Abs sb d s) :
    Simulates (Abs sb) State.withRoom (c.onDisk sb d) fun o => c.onArrays (s.withRoom o) := by
  cases c with
  | writei i src off n => exact h.writei hL src off n
  | ialloc type => exact .of_matches (fun o => onArrays_withRoom o nofun) (h.ialloc hL type)
  | iget i => exact .of_matches (fun o => onArrays_withRoom o nofun) h.iget
  | idup i => exact .of_matches (fun o => onArrays_withRoom o nofun) h.idup
  | ilock i => exact .of_matches (fun o => onArrays_withRoom o nofun) h.ilock
  | iunlock i => exact .of_matches (fun o => onArrays_withRoom o nofun) h.iunlock
  | iput i => exact .of_matches (fun o => onArrays_withRoom o nofun) (h.iput hL)
  | inode i => exact .of_matches (fun o => onArrays_withRoom o nofun) h.inode
  | setLink i major minor nlink =>
    exact .of_matches (fun o => onArrays_withRoom o nofun) (h.setLink hL major minor nlink)
  | itrunc i => exact .of_matches (fun o => onArrays_withRoom o nofun) (h.itrunc hL)
  | readi i off n => exact .of_matches (fun o => onArrays_withRoom o nofun) (h.readi hL off n)

/-! Programs. -/

/-- A volume with no inode in memory. -/
def Disk.boot (v : Vol) : Disk := ⟨FS.boot v, fun _ => false⟩

/-- The same with the files as byte arrays; the open files and the processes are those of `s`. -/
def State.boot (sb : Superblock) (v : Vol) (s : State) : State :=
  { s with
    ninodes := sb.ninodes
    node := fun i => nodeAt v (v.dinode sb i)
    ref := fun _ => 0
    valid := fun _ => false
    inuse := 0
    locked := fun _ => false }

theorem abs_boot (hI : Image sb v) : Abs sb (Disk.boot v) (s.boot sb v) := by
  have hnone : ∀ e, ¬ (FS.boot v).Held e := fun _ => Nat.lt_irrefl 0
  refine ⟨inv_boot hI, rfl, ⟨fun _ _ => rfl, fun _ _ _ => rfl⟩, ?_⟩
  refine ⟨fun e he => absurd he (hnone e), fun _ _ => ⟨rfl, rfl⟩,
    fun _ hl => (Bool.false_ne_true hl).elim, ?_⟩
  have hempty : (Finset.univ.filter fun e => (FS.boot v).Held e) = ∅ :=
    Finset.filter_false_of_mem fun e _ => hnone e
  change 0 = (Finset.univ.filter fun e => (FS.boot v).Held e).card
  rw [hempty]
  rfl

/-- The inode layer on the disk refines the one on byte arrays, for every program of its calls,
whatever it does with the values it gets: what the program returns on the disk, or the panic it
runs into, it also gets on byte arrays, for some room on the disk, and the states match. -/
theorem client_refines {α : Type} (hI : Image sb v) (s : State) (p : Prog Op Op.Ret α) :
    (∀ m, p.run (Op.onDisk sb) (Disk.boot v) = .error m →
      ∃ room, p.run Op.onArrays ((s.boot sb v).withRoom room) = .error m) ∧
    (∀ a d, p.run (Op.onDisk sb) (Disk.boot v) = .ok (a, d) →
      ∃ room s', p.run Op.onArrays ((s.boot sb v).withRoom room) = .ok (a, s') ∧ Abs sb d s') := by
  have hop : ∀ c d s, Abs sb d s → Simulates (Abs sb) State.withRoom (Op.onDisk sb c d) fun o =>
      Op.onArrays c (s.withRoom o) := fun c d s h => Abs.call hI.layout c h
  have hsim := Prog.simulates hop p (abs_boot (s := s) hI)
  constructor
  · intro m hm
    rw [hm] at hsim
    exact hsim
  · intro a d hd
    rw [hd] at hsim
    obtain ⟨s', habs, hroom⟩ := hsim
    obtain ⟨room, hrun⟩ := hroom s'.room
    exact ⟨room, s', hrun, habs⟩

/-- No open file, and one process that stands in the root. -/
def noFiles : State where
  ninodes := 0
  node := fun _ => .fresh 0
  ref := fun _ => 0
  valid := fun _ => false
  inuse := 0
  locked := fun _ => false
  room := fun _ => 0
  ops := 0
  ftable := fun _ => ⟨.none, 0, false, false, 0, 0, 0⟩
  proc := fun _ => ⟨rootino, fun _ => none⟩
  cur := 0

/-- A new inode is written and read back over the boundary of its first two blocks. -/
def storeAndRead : Prog Op Op.Ret (Int × List UInt8) :=
  .call (.ialloc tFile) fun _ => .call (.ilock 1) fun _ =>
    .call (.writei 1 counting 0 1500) fun r => .call (.readi 1 1022 4) fun b =>
      .call (.iunlock 1) fun _ => .ret (r, b)

theorem client_refines_storeAndRead :
    ∃ room s', storeAndRead.run Op.onArrays ((noFiles.boot smallSb smallVol).withRoom room) =
      .ok ((1500, [254, 255, 0, 1]), s') := by
  have hdisk : (storeAndRead.run (Op.onDisk smallSb) (Disk.boot smallVol)).toOption.map Prod.fst =
      some (1500, [254, 255, 0, 1]) := by decide +kernel
  obtain ⟨⟨a, d⟩, hd, ha⟩ := Option.map_eq_some_iff.mp hdisk
  obtain ⟨room, s', hrun, -⟩ :=
    (client_refines smallImage noFiles storeAndRead).2 a d (toOption_eq_some hd)
  cases ha
  exact ⟨room, s', hrun⟩

end Xv6Labs.Sys
