import Mathlib.Data.Set.Function
import Xv6Labs.Fs.Inode

/-! The block forest: the places at which inodes hold block numbers, and the bijection
between the places in use and the data blocks marked in use. -/
namespace Xv6Labs.Fs
open Kit Bytes

/-- A place of a block number in the tree of an inode: in `addrs`, in the single indirect
block, in the outer block, or in entry `k` of the `j`-th inner block. -/
inductive Slot where
  | addr (i : Nat)
  | ind (j : Nat)
  | out (j : Nat)
  | inn (j k : Nat)
  deriving DecidableEq

namespace Slot

def InRange : Slot → Prop
  | addr i => i < ndirect+2
  | ind j => j < nindirect
  | out j => j < nindirect
  | inn j k => j < nindirect ∧ k < nindirect

/-- The place of the index block that a place lies in, with its position there. -/
def up : Slot → Option (Slot × Nat)
  | addr _ => none
  | ind j => some (addr ndirect, j)
  | out j => some (addr (ndirect+1), j)
  | inn j k => some (out j, k)

/-- The places of file data, the others being those of index blocks. -/
def IsLeaf : Slot → Prop
  | addr i => i < ndirect
  | ind _ => True
  | out _ => False
  | inn _ _ => True

/-- The block number held at a place, 0 when a pointer on the way is 0. -/
def val (v : Vol) (d : Dinode) : Slot → Nat
  | addr i => d.addr i
  | ind j => if d.addr ndirect = 0 then 0 else v.ptr (d.addr ndirect) j
  | out j => if d.addr (ndirect+1) = 0 then 0 else v.ptr (d.addr (ndirect+1)) j
  | inn j k =>
    if d.addr (ndirect+1) = 0 then 0
    else if v.ptr (d.addr (ndirect+1)) j = 0 then 0
    else v.ptr (v.ptr (d.addr (ndirect+1)) j) k

variable {s t p : Slot} {k : Nat} {v v' : Vol} {d d' : Dinode}

theorem val_up (h : s.up = some (p, k)) :
    val v d s = if val v d p = 0 then 0 else v.ptr (val v d p) k := by
  cases s with
  | addr i => cases h
  | ind j => cases h; rfl
  | out j => cases h; rfl
  | inn j k' =>
    cases h
    simp only [val]
    by_cases h0 : d.addr (ndirect+1) = 0
    · simp [h0]
    · simp [h0]

theorem up_inj (hs : s.up = some (p, k)) (ht : t.up = some (p, k)) : s = t := by
  cases s <;> cases hs <;> cases t <;> cases ht <;> rfl

theorem InRange.up (hs : s.InRange) (h : s.up = some (p, k)) : p.InRange ∧ k < nindirect := by
  cases s with
  | addr i => cases h
  | ind j => cases h; exact ⟨show ndirect < ndirect+2 by decide, hs⟩
  | out j => cases h; exact ⟨show ndirect+1 < ndirect+2 by decide, hs⟩
  | inn j k' => cases h; exact hs

theorem not_leaf_of_up (h : s.up = some (p, k)) : ¬ p.IsLeaf := by
  cases s <;> cases h <;> simp [IsLeaf]

/-- Induction along the way from `addrs` to a place. -/
theorem up_induction {P : Slot → Prop} (root : ∀ i, P (addr i))
    (step : ∀ s p k, s.up = some (p, k) → P p → P s) (s : Slot) : P s := by
  have hout : ∀ j, P (out j) := fun j => step _ _ _ rfl (root _)
  cases s with
  | addr i => exact root i
  | ind j => exact step _ _ _ rfl (root _)
  | out j => exact hout j
  | inn j k => exact step _ _ _ rfl (hout j)

end Slot

/-- A place of an inode. -/
abbrev Place := Nat × Slot

variable {sb : Superblock} {v v' : Vol} {din din' : Nat → Dinode} {x y : Place} {b : Nat}

def valAt (v : Vol) (din : Nat → Dinode) (x : Place) : Nat := x.2.val v (din x.1)

/-- A place that exists: in an allocated inode. -/
def Place.Exists (sb : Superblock) (din : Nat → Dinode) (x : Place) : Prop :=
  x.1 < sb.ninodes ∧ (din x.1).type ≠ 0 ∧ x.2.InRange

/-- The places that hold a block. -/
def held (sb : Superblock) (v : Vol) (din : Nat → Dinode) : Set Place :=
  {x | x.Exists sb din ∧ valAt v din x ≠ 0}

/-- The data blocks marked in use. -/
def used (sb : Superblock) (v : Vol) : Set Nat := {b | sb.IsData b ∧ v.bit sb b}

/-- The places `S` hold the data blocks in use, each once; the metadata is marked in use. -/
structure Owns (sb : Superblock) (v : Vol) (f : Place → Nat) (S : Set Place) : Prop where
  bits : ∀ b < sb.datastart, v.bit sb b
  bij : Set.BijOn f S (used sb v)

/-- The block forest of the inodes `din`. -/
def Forest (sb : Superblock) (v : Vol) (din : Nat → Dinode) : Prop :=
  Owns sb v (valAt v din) (held sb v din)

namespace Owns
variable {f g : Place → Nat} {S : Set Place}

theorem congr_bit (h : Owns sb v f S)
    (hbit : ∀ b < sb.size, v'.bit sb b = v.bit sb b) : Owns sb v' f S := by
  have hsize : ∀ b < sb.datastart, b < sb.size := by
    intro b hb
    unfold Superblock.datastart at hb
    omega
  have hused : used sb v' = used sb v := by
    ext b
    constructor
    · intro hb
      exact ⟨hb.1, (hbit b hb.1.2) ▸ hb.2⟩
    · intro hb
      exact ⟨hb.1, (hbit b hb.1.2).symm ▸ hb.2⟩
  constructor
  · intro b hb
    rw [hbit b (hsize b hb)]
    exact h.bits b hb
  · rw [hused]
    exact h.bij

theorem congr_val (h : Owns sb v f S) (hfg : Set.EqOn f g S) : Owns sb v g S :=
  ⟨h.bits, h.bij.congr hfg⟩

theorem free_isData (h : Owns sb v f S) (hb : b < sb.size) (hfree : ¬ v.bit sb b) :
    sb.IsData b := by
  refine ⟨?_, hb⟩
  by_contra hlt
  exact hfree (h.bits b (by omega))

/-- A free block goes to a new place. -/
theorem take (h : Owns sb v f S) (hL : sb.Layout) (hb : b < sb.size) (hfree : ¬ v.bit sb b)
    (hx : g x = b) (hfg : Set.EqOn f g S) : Owns sb (v.take sb b) g (insert x S) := by
  have hdata := h.free_isData hb hfree
  have hused : used sb (v.take sb b) = insert b (used sb v) := by
    ext c
    constructor
    · intro hc
      have hbit := hc.2
      rw [take_bit hL hdata hc.1.2] at hbit
      by_cases hcb : c = b
      · exact .inl hcb
      · exact .inr ⟨hc.1, by simpa [hcb] using hbit⟩
    · intro hc
      cases hc with
      | inl hcb =>
        rw [hcb]
        exact ⟨hdata, by rw [take_bit hL hdata hb]; simp⟩
      | inr hc => exact ⟨hc.1, by rw [take_bit hL hdata hc.1.2]; simp [hc.2]⟩
  constructor
  · intro c hc
    have hsize : c < sb.size := lt_trans hc (lt_of_le_of_lt hdata.1 hb)
    rw [take_bit hL hdata hsize]
    simp [h.bits c hc]
  · rw [hused, ← hx]
    exact (h.bij.congr hfg).insert (by rw [hx]; exact fun hc => hfree hc.2)

/-- `bfree` of the block at a place in use does not panic and empties the place. -/
theorem release (h : Owns sb v f S) (hx : x ∈ S) :
    bfree sb v (f x) = .ok (v.release sb (f x)) ∧ Owns sb (v.release sb (f x)) f (S \ {x}) := by
  have hmem : f x ∈ used sb v := h.bij.mapsTo hx
  have hused : used sb (v.release sb (f x)) = used sb v \ {f x} := by
    ext c
    constructor
    · intro hc
      have hbit := hc.2
      rw [release_bit] at hbit
      have hboth : c ≠ f x ∧ v.bit sb c := by simpa using hbit
      exact ⟨⟨hc.1, hboth.2⟩, hboth.1⟩
    · intro hc
      refine ⟨hc.1.1, ?_⟩
      rw [release_bit]
      have hne : c ≠ f x := hc.2
      simp [hne, hc.1.2]
  refine ⟨bfree_eq hmem.2, ?_, ?_⟩
  · intro c hc
    have hne : c ≠ f x := by
      intro heq
      have := hmem.1.1
      omega
    rw [release_bit]
    simp [hne, h.bits c hc]
  · rw [hused]
    exact h.bij.sdiff_singleton hx

end Owns

namespace Forest

theorem isData (h : Forest sb v din) (hx : x ∈ held sb v din) : sb.IsData (valAt v din x) :=
  (h.bij.mapsTo hx).1

theorem bit (h : Forest sb v din) (hx : x ∈ held sb v din) : v.bit sb (valAt v din x) :=
  (h.bij.mapsTo hx).2

theorem inj (h : Forest sb v din) (hx : x ∈ held sb v din) (hy : y ∈ held sb v din)
    (hxy : valAt v din x = valAt v din y) : x = y := h.bij.injOn hx hy hxy

theorem val_ne_free (h : Forest sb v din) (hx : x ∈ held sb v din) (hb : ¬ v.bit sb b) :
    valAt v din x ≠ b := fun heq => hb (heq ▸ h.bit hx)

end Forest

/-- The parent of a held place is held. -/
theorem held_up {i : Nat} {s p : Slot} {k : Nat} (hx : Place.Exists sb din (i, s))
    (h : s.up = some (p, k)) (hp : p.val v (din i) ≠ 0) : (i, p) ∈ held sb v din :=
  ⟨⟨hx.1, hx.2.1, (hx.2.2.up h).1⟩, hp⟩

theorem valAt_up {i : Nat} {s p : Slot} {k : Nat} (h : s.up = some (p, k))
    (hp : valAt v din (i, p) ≠ 0) : valAt v din (i, s) = v.ptr (valAt v din (i, p)) k := by
  unfold valAt at *
  rw [Slot.val_up h, if_neg hp]

theorem valAt_up_zero {i : Nat} {s p : Slot} {k : Nat} (h : s.up = some (p, k))
    (hp : valAt v din (i, p) = 0) : valAt v din (i, s) = 0 := by
  unfold valAt at *
  rw [Slot.val_up h, if_pos hp]

theorem valAt_update {inum : Nat} {d : Dinode} {s : Slot} :
    valAt v (Function.update din inum d) (inum, s) = s.val v d := by
  rw [valAt, Function.update_self]

theorem exists_update {inum : Nat} {d : Dinode} {s : Slot} (hi : inum < sb.ninodes)
    (ht : d.type ≠ 0) (hs : s.InRange) :
    Place.Exists sb (Function.update din inum d) (inum, s) :=
  ⟨hi, by rw [Function.update_self]; exact ht, hs⟩

theorem held_update {inum : Nat} {d : Dinode} {s : Slot} (hi : inum < sb.ninodes)
    (ht : d.type ≠ 0) (hs : s.InRange) (hne : s.val v d ≠ 0) :
    (inum, s) ∈ held sb v (Function.update din inum d) :=
  ⟨exists_update hi ht hs, by rw [valAt_update]; exact hne⟩

/-- Blocks are read through held places only: the values depend on the roots and on the index
blocks in use. -/
theorem val_frame {i : Nat} {d : Dinode} (hroot : ∀ j, d.addr j = (din i).addr j)
    (hptr : ∀ p ∈ held sb v din, p.1 = i → ¬ p.2.IsLeaf → ∀ k < nindirect,
      v'.ptr (valAt v din p) k = v.ptr (valAt v din p) k)
    (hi : i < sb.ninodes) (ht : (din i).type ≠ 0) (s : Slot) (hs : s.InRange) :
    s.val v' d = s.val v (din i) := by
  induction s using Slot.up_induction with
  | root j => exact hroot j
  | step s p k hup ih =>
    have hrange := hs.up hup
    rw [Slot.val_up hup, Slot.val_up hup, ih hrange.1]
    split
    · rfl
    · next hp =>
      exact hptr (i, p) ⟨⟨hi, ht, hrange.1⟩, hp⟩ rfl (Slot.not_leaf_of_up hup) k hrange.2

/-- New contents for a block of file data leave every place and every bit as it is. -/
theorem Forest.writeLeaf (hL : sb.Layout) (hF : Forest sb v din) (hx : x ∈ held sb v din)
    (hleaf : x.2.IsLeaf) (hdisk : ∀ c, c ≠ valAt v din x → v'.disk c = v.disk c) :
    (∀ y, Place.Exists sb din y → valAt v' din y = valAt v din y) ∧
      (∀ c < sb.size, v'.bit sb c = v.bit sb c) ∧ Forest sb v' din := by
  have hdata := hF.isData hx
  have hsame : ∀ y, Place.Exists sb din y → valAt v' din y = valAt v din y := by
    intro y hy
    have hptr : ∀ p ∈ held sb v din, p.1 = y.1 → ¬ p.2.IsLeaf → ∀ k < nindirect,
        v'.ptr (valAt v din p) k = v.ptr (valAt v din p) k := by
      intro p hp _ hindex k _
      have hne : valAt v din p ≠ valAt v din x := by
        intro heq
        rw [hF.inj hp hx heq] at hindex
        exact hindex hleaf
      unfold Vol.ptr
      rw [hdisk _ hne]
    exact val_frame (fun _ => rfl) hptr hy.1 hy.2.1 y.2 hy.2.2
  have hbit : ∀ c < sb.size, v'.bit sb c = v.bit sb c := by
    intro c hc
    refine bit_congr hL hc fun y _ hy => hdisk y ?_
    have := hdata.1
    omega
  have hheld : held sb v' din = held sb v din := by
    ext y
    constructor
    · intro hy
      exact ⟨hy.1, hsame y hy.1 ▸ hy.2⟩
    · intro hy
      exact ⟨hy.1, (hsame y hy.1).symm ▸ hy.2⟩
  refine ⟨hsame, hbit, ?_⟩
  unfold Forest
  rw [hheld]
  exact (Owns.congr_val hF fun y hy => (hsame y hy.1).symm).congr_bit hbit

end Xv6Labs.Fs
