import Mathlib.Order.Bounds.Basic
import Xv6Labs.Fs.Bitmap
import Xv6Labs.Kit.Run

/-! The bitmap as a set of block numbers: `balloc` adds the least that is missing, `bfree` takes
one out, and what stands in other blocks has no part in it. Nothing is assumed of the disk but
that its metadata blocks are marked in use. -/
namespace Xv6Labs.Fs
open Kit Bytes

/-- The bitmap blocks, `size/BPB + 1` of them. -/
def Superblock.IsBitmap (sb : Superblock) (x : Nat) : Prop :=
  sb.bmapstart ≤ x ∧ x ≤ sb.bmapstart + sb.size/bpb

/-- Boot block, super block, log, inode blocks and bitmap blocks. -/
def Superblock.IsMeta (sb : Superblock) (x : Nat) : Prop :=
  x ≤ 1 ∨ (sb.logstart ≤ x ∧ x < sb.logstart + sb.nlog) ∨
    (sb.inodestart ≤ x ∧ x ≤ sb.inodestart + sb.ninodes/ipb) ∨ sb.IsBitmap x

def Vol.MetaUsed (sb : Superblock) (v : Vol) : Prop := ∀ x < sb.size, sb.IsMeta x → v.bit sb x

/-- The block has a bit in the bitmap; the last bitmap block has more bits than there are blocks. -/
def Superblock.HasBit (sb : Superblock) (b : Nat) : Prop := b/bpb ≤ sb.size/bpb

/-- The set that the bitmap stands for. -/
def Vol.marked (sb : Superblock) (v : Vol) : Set Nat := {b | sb.HasBit b ∧ v.bit sb b}

/-- The blocks that `balloc` may hand out. -/
def Vol.unmarked (sb : Superblock) (v : Vol) : Set Nat := {b | b < sb.size ∧ b ∉ v.marked sb}

variable {sb : Superblock} {v v' : Vol} {b x : Nat}

theorem hasBit_of_lt (h : b < sb.size) : sb.HasBit b := Nat.div_le_div_right (Nat.le_of_lt h)

theorem isBitmap_bblock (h : sb.HasBit b) : sb.IsBitmap (sb.bblock b) := by
  rw [Superblock.HasBit] at h
  refine ⟨sb.bblock_ge b, ?_⟩
  rw [Superblock.bblock]
  omega

theorem mem_unmarked : b ∈ v.unmarked sb ↔ b < sb.size ∧ ¬ v.bit sb b := by
  constructor
  · intro h
    exact ⟨h.1, fun hbit => h.2 ⟨hasBit_of_lt h.1, hbit⟩⟩
  · intro h
    exact ⟨h.1, fun hm => h.2 hm.2⟩

/-- A block that may be handed out holds no metadata. -/
theorem Vol.MetaUsed.not_isMeta (hm : v.MetaUsed sb) (hb : b ∈ v.unmarked sb) : ¬ sb.IsMeta b := by
  intro hmeta
  exact (mem_unmarked.mp hb).2 (hm b hb.1 hmeta)

/-- What a call leaves when it has put `b` into the set. -/
structure Taken (sb : Superblock) (v v' : Vol) (b : Nat) : Prop where
  marked : v'.marked sb = insert b (v.marked sb)
  zeroed : v'.disk b = fun _ => 0
  others : ∀ x, x ≠ b → ¬ sb.IsBitmap x → v'.disk x = v.disk x

/-- What a call leaves when it has taken `b` out of the set. -/
structure Freed (sb : Superblock) (v v' : Vol) (b : Nat) : Prop where
  marked : v'.marked sb = v.marked sb \ {b}
  others : ∀ x, ¬ sb.IsBitmap x → v'.disk x = v.disk x

/-- A write outside the bitmap changes no bit. -/
theorem bit_write_of_not_isBitmap {data : Buf} (hx : sb.HasBit x) (hb : ¬ sb.IsBitmap b) :
    (v.write b data).bit sb x = v.bit sb x := by
  have hne : sb.bblock x ≠ b := fun he => hb (he ▸ isBitmap_bblock hx)
  rw [Vol.bit, Vol.bit, disk_write_ne hne]

theorem bit_take (hx : sb.HasBit x) (hb : ¬ sb.IsBitmap b) :
    (v.take sb b).bit sb x = (decide (x = b) || v.bit sb x) :=
  take_bit_of_ne fun he => hb (he ▸ isBitmap_bblock hx)

theorem taken_take (hb : sb.HasBit b) (hoff : ¬ sb.IsBitmap b) : Taken sb v (v.take sb b) b where
  marked := by
    ext x
    constructor
    · intro hx
      have hbit := hx.2
      rw [bit_take hx.1 hoff, Bool.or_eq_true, decide_eq_true_eq] at hbit
      exact hbit.imp id fun h => ⟨hx.1, h⟩
    · intro hx
      have hhas : sb.HasBit x := hx.elim (fun he => he ▸ hb) And.left
      refine ⟨hhas, ?_⟩
      rw [bit_take hhas hoff, Bool.or_eq_true, decide_eq_true_eq]
      exact hx.imp id And.right
  zeroed := take_disk_self
  others := by
    intro x hne hx
    have hbx : x ≠ sb.bblock b := fun he => hx (he ▸ isBitmap_bblock hb)
    rw [Vol.take, Vol.bzero, disk_write_ne hne, disk_write_ne hbx]

theorem freed_release (hb : sb.HasBit b) : Freed sb v (v.release sb b) b where
  marked := by
    ext x
    constructor
    · intro hx
      have hbit := hx.2
      rw [release_bit, Bool.and_eq_true, Bool.not_eq_true', decide_eq_false_iff_not] at hbit
      exact ⟨⟨hx.1, hbit.2⟩, hbit.1⟩
    · intro hx
      refine ⟨hx.1.1, ?_⟩
      rw [release_bit, Bool.and_eq_true, Bool.not_eq_true', decide_eq_false_iff_not]
      exact ⟨hx.2, hx.1.2⟩
  others := by
    intro x hx
    have hbx : x ≠ sb.bblock b := fun he => hx (he ▸ isBitmap_bblock hb)
    rw [Vol.release, disk_write_ne hbx]

/-- `balloc` as an operation on the set. -/
theorem balloc_marked (hm : v.MetaUsed sb) :
    (v.unmarked sb = ∅ ∧ balloc sb v = (0, v)) ∨
      ∃ b, b ≠ 0 ∧ IsLeast (v.unmarked sb) b ∧ balloc sb v = (b, v.take sb b) ∧
        ¬ sb.IsMeta b ∧ Taken sb v (v.take sb b) b := by
  cases balloc_spec sb v with
  | inl hfull =>
    refine .inl ⟨?_, hfull.1⟩
    ext c
    constructor
    · intro hc
      exact ((mem_unmarked.mp hc).2 (hfull.2 c hc.1)).elim
    · intro hc
      exact hc.elim
  | inr hfound =>
    obtain ⟨b, hb, hfree, hlow, heq⟩ := hfound
    have hmem : b ∈ v.unmarked sb := mem_unmarked.mpr ⟨hb, hfree⟩
    have hmeta := hm.not_isMeta hmem
    refine .inr ⟨b, fun h0 => hmeta (.inl (by omega)), ⟨hmem, ?_⟩, heq, hmeta, ?_⟩
    · intro c hc
      by_contra hlt
      exact (mem_unmarked.mp hc).2 (hlow c (by omega))
    · exact taken_take (hasBit_of_lt hb) fun hbm => hmeta (.inr (.inr (.inr hbm)))

theorem bfree_marked (hb : b ∈ v.marked sb) :
    bfree sb v b = .ok (v.release sb b) ∧ Freed sb v (v.release sb b) b :=
  ⟨bfree_eq hb.2, freed_release hb.1⟩

/-- Byte by byte, the bitmap is what it was before `b` was taken and returned. -/
theorem release_take_disk (hb : sb.HasBit b) (hoff : ¬ sb.IsBitmap b) (hfree : ¬ v.bit sb b)
    (hx : sb.IsBitmap x) : ((v.take sb b).release sb b).disk x = v.disk x := by
  have hne : ∀ y, sb.IsBitmap y → y ≠ b := fun y hy he => hoff (he ▸ hy)
  have hbit : testBit (v.disk (sb.bblock b)) (b % bpb) = false := by simpa [Vol.bit] using hfree
  have htake : (v.take sb b).disk (sb.bblock b) =
      setBit (v.disk (sb.bblock b)) (b % bpb) := by
    rw [Vol.take, Vol.bzero, disk_write_ne (hne _ (isBitmap_bblock hb)), disk_write, if_pos rfl]
  rw [Vol.release, disk_write, htake]
  by_cases hblk : x = sb.bblock b
  · rw [if_pos hblk, hblk, clearBit_setBit hbit]
  · rw [if_neg hblk, Vol.take, Vol.bzero, disk_write_ne (hne x hx), disk_write_ne hblk]

/-! Runs of allocations, frees and writes to other blocks. -/

inductive BlockAct where
  | alloc (b : Nat)
  | free (b : Nat)
  | write (x : Nat)

/-- Only the two functions of the bitmap write to its blocks, and nobody frees metadata. -/
inductive BlockStep (sb : Superblock) : Vol → BlockAct → Vol → Prop
  | alloc {v v' : Vol} {b : Nat} : balloc sb v = (b, v') → BlockStep sb v (.alloc b) v'
  | free {v v' : Vol} {b : Nat} : ¬ sb.IsMeta b → bfree sb v b = .ok v' →
      BlockStep sb v (.free b) v'
  | write {v : Vol} {x : Nat} {data : Buf} : ¬ sb.IsBitmap x →
      BlockStep sb v (.write x) (v.write x data)

/-- Block `b` was handed out and has not been freed since. -/
def Outstanding (tr : List BlockAct) (b : Nat) : Prop :=
  ∃ t₁ t₂, tr = t₁ ++ .alloc b :: t₂ ∧ .free b ∉ t₂

theorem outstanding_snoc {tr : List BlockAct} {a : BlockAct} (h : Outstanding (tr ++ [a]) b) :
    a = .alloc b ∨ (Outstanding tr b ∧ a ≠ .free b) := by
  obtain ⟨t₁, t₂, heq, hfree⟩ := h
  cases List.eq_nil_or_concat' t₂ with
  | inl hnil =>
    rw [hnil] at heq
    obtain ⟨-, ha⟩ := List.append_inj' heq rfl
    exact .inl (List.cons.inj ha).1
  | inr hsnoc =>
    obtain ⟨t₃, c, rfl⟩ := hsnoc
    rw [← List.cons_append, ← List.append_assoc] at heq
    obtain ⟨htr, ha⟩ := List.append_inj' heq rfl
    obtain rfl : a = c := (List.cons.inj ha).1
    refine .inr ⟨⟨t₁, t₃, htr, fun hin => hfree (List.mem_append_left _ hin)⟩, ?_⟩
    intro hfa
    exact hfree (List.mem_append_right _ (by rw [hfa]; exact List.mem_singleton_self _))

/-- The metadata stays marked, and so does every block that is outstanding. -/
structure Tracks (sb : Superblock) (tr : List BlockAct) (v : Vol) : Prop where
  metaUsed : v.MetaUsed sb
  outstanding : ∀ b ≠ 0, Outstanding tr b → b < sb.size ∧ v.bit sb b

theorem tracks_alloc {tr : List BlockAct} (h : Tracks sb tr v) (hs : balloc sb v = (b, v')) :
    Tracks sb (tr ++ [.alloc b]) v' := by
  cases balloc_marked h.metaUsed with
  | inl hfull =>
    rw [hfull.2] at hs
    obtain ⟨rfl, rfl⟩ := Prod.mk.inj hs
    refine ⟨h.metaUsed, ?_⟩
    intro c hc hout
    cases outstanding_snoc hout with
    | inl heq => exact absurd (BlockAct.alloc.inj heq).symm hc
    | inr hold => exact h.outstanding c hc hold.1
  | inr hfound =>
    obtain ⟨c, -, hleast, heq, hmeta, -⟩ := hfound
    rw [heq] at hs
    obtain ⟨rfl, rfl⟩ := Prod.mk.inj hs
    have hoff : ¬ sb.IsBitmap c := fun hbm => hmeta (.inr (.inr (.inr hbm)))
    have hkeep : ∀ x < sb.size, x = c ∨ v.bit sb x → (v.take sb c).bit sb x := by
      intro x hx hor
      rw [bit_take (hasBit_of_lt hx) hoff, Bool.or_eq_true, decide_eq_true_eq]
      exact hor
    refine ⟨fun x hx hm => hkeep x hx (.inr (h.metaUsed x hx hm)), ?_⟩
    intro x hx hout
    cases outstanding_snoc hout with
    | inl he =>
      have hxc : x = c := (BlockAct.alloc.inj he).symm
      have hlt : x < sb.size := hxc ▸ hleast.1.1
      exact ⟨hlt, hkeep x hlt (.inl hxc)⟩
    | inr hold =>
      obtain ⟨hlt, hbit⟩ := h.outstanding x hx hold.1
      exact ⟨hlt, hkeep x hlt (.inr hbit)⟩

theorem tracks_free {tr : List BlockAct} (h : Tracks sb tr v) (hb : ¬ sb.IsMeta b)
    (hs : bfree sb v b = .ok v') : Tracks sb (tr ++ [.free b]) v' := by
  have hv : v' = v.release sb b := by
    rw [bfree] at hs
    split at hs
    · cases hs
      rfl
    · cases hs
  have hkeep : ∀ x, x ≠ b → v.bit sb x → (v.release sb b).bit sb x := by
    intro x hne hbit
    rw [release_bit, hbit]
    simpa using hne
  rw [hv]
  refine ⟨fun x hx hm => hkeep x (fun he => hb (he ▸ hm)) (h.metaUsed x hx hm), ?_⟩
  intro x hx hout
  cases outstanding_snoc hout with
  | inl heq => cases heq
  | inr hold =>
    obtain ⟨hlt, hbit⟩ := h.outstanding x hx hold.1
    exact ⟨hlt, hkeep x (fun he => hold.2 (by rw [he])) hbit⟩

theorem tracks_write {tr : List BlockAct} {data : Buf} (h : Tracks sb tr v)
    (hx : ¬ sb.IsBitmap x) : Tracks sb (tr ++ [.write x]) (v.write x data) := by
  have hkeep : ∀ c < sb.size, v.bit sb c → (v.write x data).bit sb c := by
    intro c hc hbit
    rw [bit_write_of_not_isBitmap (hasBit_of_lt hc) hx]
    exact hbit
  refine ⟨fun c hc hm => hkeep c hc (h.metaUsed c hc hm), ?_⟩
  intro c hc hout
  cases outstanding_snoc hout with
  | inl heq => cases heq
  | inr hold =>
    obtain ⟨hlt, hbit⟩ := h.outstanding c hc hold.1
    exact ⟨hlt, hkeep c hlt hbit⟩

theorem tracks_run (hm : v.MetaUsed sb) {tr : List BlockAct}
    (hr : Run (BlockStep sb) v tr v') : Tracks sb tr v' := by
  refine hr.history (P := Tracks sb) ⟨hm, ?_⟩ ?_
  · intro b _ hout
    obtain ⟨t₁, t₂, heq, -⟩ := hout
    exact absurd heq.symm (List.append_ne_nil_of_right_ne_nil _ (List.cons_ne_nil _ _))
  · intro tr v a v' _ h hs
    cases hs with
    | alloc heq => exact tracks_alloc h heq
    | free hb heq => exact tracks_free h hb heq
    | write hx => exact tracks_write h hx

/-- The bitmap implements a set: `balloc` takes the least block that is not in it, or returns 0
with nothing changed exactly if there is none, `bfree` takes a block out, a block taken and
returned leaves the bitmap as it was, and no block is handed out a second time before it has
been freed. -/
theorem bitmap_implements_set (hm : v.MetaUsed sb) :
    (v.unmarked sb = ∅ ∧ balloc sb v = (0, v) ∨
      ∃ b v', balloc sb v = (b, v') ∧ b ≠ 0 ∧ IsLeast (v.unmarked sb) b ∧ Taken sb v v' b ∧
        ∃ v'', bfree sb v' b = .ok v'' ∧ ∀ x, sb.IsBitmap x → v''.disk x = v.disk x) ∧
    (∀ b ∈ v.marked sb, ∃ v', bfree sb v b = .ok v' ∧ Freed sb v v' b) ∧
    ∀ tr v', Run (BlockStep sb) v tr v' → ∀ b v'', balloc sb v' = (b, v'') → b ≠ 0 →
      ¬ Outstanding tr b := by
  refine ⟨?_, fun b hb => ⟨_, bfree_marked hb⟩, ?_⟩
  · cases balloc_marked hm with
    | inl hnone => exact .inl hnone
    | inr hfound =>
      obtain ⟨b, h0, hleast, heq, hmeta, htaken⟩ := hfound
      have hb := mem_unmarked.mp hleast.1
      have hoff : ¬ sb.IsBitmap b := fun hbm => hmeta (.inr (.inr (.inr hbm)))
      have hin : b ∈ (v.take sb b).marked sb := by
        rw [htaken.marked]
        exact Set.mem_insert b _
      refine .inr ⟨b, v.take sb b, heq, h0, hleast, htaken, _, (bfree_marked hin).1, ?_⟩
      exact fun x hx => release_take_disk (hasBit_of_lt hb.1) hoff hb.2 hx
  · intro tr v' hr b v'' heq h0 hout
    have ht := tracks_run hm hr
    cases balloc_marked ht.metaUsed with
    | inl hnone =>
      rw [hnone.2] at heq
      exact h0 (Prod.mk.inj heq).1.symm
    | inr hfound =>
      obtain ⟨c, -, hleast, heq', -⟩ := hfound
      rw [heq'] at heq
      obtain ⟨rfl, -⟩ := Prod.mk.inj heq
      exact (mem_unmarked.mp hleast.1).2 (ht.outstanding c h0 hout).2

/-- A disk with three bitmap blocks, the last one in part. -/
def bandSb : Superblock where
  size := 20000
  nblocks := 19952
  ninodes := 200
  nlog := 30
  logstart := 2
  inodestart := 32
  bmapstart := 45

/-- The first ten thousand blocks are in use. -/
def bandVol : Vol where
  disk := fun x => ofBits fun i => decide ((x - 45)*bpb + i < 10000)
  logged := []

theorem bit_bandVol (x : Nat) : bandVol.bit bandSb x = decide (x < 10000) := by
  have hblk : bandSb.bblock x - 45 = x/bpb := by
    rw [Superblock.bblock]
    exact Nat.add_sub_cancel _ _
  have hsum : x/bpb*bpb + x % bpb = x := by
    rw [Nat.mul_comm]
    exact Nat.div_add_mod x bpb
  simp only [Vol.bit, bandVol]
  rw [testBit_ofBits, hblk, hsum]

/-- The least free block is found in the second bitmap block. -/
theorem bitmap_implements_set_band :
    bandVol.MetaUsed bandSb ∧
      ∃ v', balloc bandSb bandVol = (10000, v') ∧ Taken bandSb bandVol v' 10000 := by
  have hm : bandVol.MetaUsed bandSb := by
    intro x _ hmeta
    rw [bit_bandVol, decide_eq_true_eq]
    simp only [Superblock.IsMeta, Superblock.IsBitmap, bandSb, ipb, bpb] at hmeta
    omega
  have hleast : IsLeast (bandVol.unmarked bandSb) 10000 := by
    refine ⟨mem_unmarked.mpr ⟨by decide, by simp [bit_bandVol]⟩, ?_⟩
    intro c hc
    have hbit := (mem_unmarked.mp hc).2
    rw [bit_bandVol, decide_eq_true_eq] at hbit
    omega
  refine ⟨hm, ?_⟩
  cases (bitmap_implements_set hm).1 with
  | inl hnone =>
    have hmem := hleast.1
    rw [hnone.1] at hmem
    exact hmem.elim
  | inr hfound =>
    obtain ⟨b, v', heq, -, hb, htaken, -⟩ := hfound
    obtain rfl : b = 10000 := hb.unique hleast
    exact ⟨v', heq, htaken⟩

end Xv6Labs.Fs
