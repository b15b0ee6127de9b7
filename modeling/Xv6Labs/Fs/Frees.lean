import Xv6Labs.Fs.Bmap

/-! A truncation as a sequence of `bfree` calls: the list of the blocks it frees, in its order. -/
namespace Xv6Labs.Fs
open Kit Bytes

variable {sb : Superblock} {v v' v'' w : Vol} {a b x : Nat} {d : Dinode} {bs cs : List Nat}

/-- The volume `v'` is reached from `v` by freeing the blocks `bs`, one after the other. -/
def Frees (sb : Superblock) (v : Vol) (bs : List Nat) (v' : Vol) : Prop :=
  bs.foldlM (bfree sb) v = .ok v'

theorem bfree_ok (h : bfree sb v b = .ok v') : v.bit sb b ∧ v' = v.release sb b := by
  unfold bfree at h
  split at h
  · next hbit => cases h; exact ⟨hbit, rfl⟩
  · cases h

namespace Frees

theorem nil (v : Vol) : Frees sb v [] v := rfl

theorem single (h : bfree sb v b = .ok v') : Frees sb v [b] v' := by
  unfold Frees
  rw [List.foldlM_cons, h]
  rfl

theorem append (h : Frees sb v bs v') (h' : Frees sb v' cs v'') : Frees sb v (bs++cs) v'' := by
  unfold Frees at *
  rw [List.foldlM_append, h]
  exact h'

theorem cons_inv (h : Frees sb v (b::bs) v') : v.bit sb b ∧ Frees sb (v.release sb b) bs v' := by
  unfold Frees at h
  rw [List.foldlM_cons] at h
  cases hb : bfree sb v b with
  | error e => rw [hb] at h; cases h
  | ok w =>
    obtain ⟨hbit, rfl⟩ := bfree_ok hb
    rw [hb] at h
    exact ⟨hbit, h⟩

theorem logged (h : Frees sb v bs v') : v'.logged = v.logged ++ bs.map sb.bblock := by
  induction bs generalizing v with
  | nil => cases h; simp
  | cons b bs ih =>
    rw [ih h.cons_inv.2]
    simp [Vol.release, Vol.write]

/-- The bits of the freed blocks are cleared, all others stay. -/
theorem bit (h : Frees sb v bs v') : v'.bit sb x ↔ v.bit sb x ∧ x ∉ bs := by
  induction bs generalizing v with
  | nil => cases h; simp
  | cons b bs ih =>
    rw [ih h.cons_inv.2, release_bit]
    simp only [Bool.and_eq_true, Bool.not_eq_true', decide_eq_false_iff_not, List.mem_cons, not_or]
    tauto

theorem bit_of_mem (h : Frees sb v bs v') (hx : x ∈ bs) : v.bit sb x := by
  induction bs generalizing v with
  | nil => cases hx
  | cons b bs ih =>
    obtain ⟨hbit, hrest⟩ := h.cons_inv
    cases List.mem_cons.mp hx with
    | inl hxb => rw [hxb]; exact hbit
    | inr hxs =>
      have hrel := ih hrest hxs
      rw [release_bit, Bool.and_eq_true] at hrel
      exact hrel.2

/-- A block freed twice would have made `bfree` panic. -/
theorem nodup (h : Frees sb v bs v') : bs.Nodup := by
  induction bs generalizing v with
  | nil => exact List.nodup_nil
  | cons b bs ih =>
    obtain ⟨_, hrest⟩ := h.cons_inv
    refine List.nodup_cons.mpr ⟨?_, ih hrest⟩
    intro hmem
    have hbit := hrest.bit_of_mem hmem
    rw [release_bit] at hbit
    simp at hbit

end Frees

/-! The blocks that `itrunc` frees, in its order. -/

def entryBlocks (b : Nat) : List Nat := if b = 0 then [] else [b]

/-- What an index block at `a` brings: the blocks below it, then the block itself. -/
def indexBlocks (below : Nat → List Nat) (a : Nat) : List Nat :=
  if a = 0 then [] else below a ++ [a]

def tableBlocks (v : Vol) (a : Nat) : List Nat :=
  (List.range nindirect).flatMap fun j => entryBlocks (v.ptr a j)

def outerBlocks (v : Vol) (a : Nat) : List Nat :=
  (List.range nindirect).flatMap fun j => indexBlocks (tableBlocks v) (v.ptr a j)

def directBlocks (d : Dinode) : List Nat :=
  (List.range ndirect).flatMap fun i => entryBlocks (d.addr i)

def freedBlocks (v : Vol) (d : Dinode) : List Nat :=
  directBlocks d ++ indexBlocks (tableBlocks v) (d.addr ndirect) ++
    indexBlocks (outerBlocks v) (d.addr (ndirect+1))

/-- The blocks of the tree of an inode: data blocks and index blocks. -/
def treeBlocks (v : Vol) (d : Dinode) : Set Nat :=
  {b | b ≠ 0 ∧ ∃ s : Slot, s.InRange ∧ s.val v d = b}

theorem mem_entryBlocks : b ∈ entryBlocks a ↔ b ≠ 0 ∧ a = b := by
  unfold entryBlocks
  split
  · next h => simp [h]; omega
  · next h => simp; omega

theorem mem_indexBlocks {below : Nat → List Nat} :
    b ∈ indexBlocks below a ↔ a ≠ 0 ∧ (b ∈ below a ∨ b = a) := by
  unfold indexBlocks
  split
  · next h => simp [h]
  · next h => simp [h]

theorem mem_tableBlocks : b ∈ tableBlocks v a ↔ b ≠ 0 ∧ ∃ j < nindirect, v.ptr a j = b := by
  simp only [tableBlocks, List.mem_flatMap, List.mem_range, mem_entryBlocks]
  tauto

theorem mem_directBlocks : b ∈ directBlocks d ↔ b ≠ 0 ∧ ∃ i < ndirect, d.addr i = b := by
  simp only [directBlocks, List.mem_flatMap, List.mem_range, mem_entryBlocks]
  tauto

theorem mem_outerBlocks : b ∈ outerBlocks v a ↔ ∃ j < nindirect, v.ptr a j ≠ 0 ∧
    (b ∈ tableBlocks v (v.ptr a j) ∨ b = v.ptr a j) := by
  simp only [outerBlocks, List.mem_flatMap, List.mem_range, mem_indexBlocks]

/-- The list has exactly the blocks of the tree. -/
theorem mem_freedBlocks : b ∈ freedBlocks v d ↔ b ∈ treeBlocks v d := by
  unfold freedBlocks treeBlocks
  rw [List.mem_append, List.mem_append, mem_directBlocks, mem_indexBlocks, mem_indexBlocks,
    mem_tableBlocks, mem_outerBlocks]
  constructor
  · intro h
    obtain (⟨h0, i, hi, rfl⟩ | ⟨ha, ⟨h0, j, hj, rfl⟩ | rfl⟩) | ⟨ha, ⟨j, hj, hp, hb⟩ | rfl⟩ := h
    · exact ⟨h0, .addr i, Nat.lt_add_right 2 hi, rfl⟩
    · exact ⟨h0, .ind j, hj, if_neg ha⟩
    · exact ⟨ha, .addr ndirect, (by decide : ndirect < ndirect+2), rfl⟩
    · cases hb with
      | inl hb =>
        obtain ⟨h0, k, hk, rfl⟩ := mem_tableBlocks.mp hb
        exact ⟨h0, .inn j k, ⟨hj, hk⟩, by simp [Slot.val, ha, hp]⟩
      | inr hb => exact ⟨hb ▸ hp, .out j, hj, by simp [Slot.val, ha, hb]⟩
    · exact ⟨ha, .addr (ndirect+1), (by decide : ndirect+1 < ndirect+2), rfl⟩
  · intro h
    obtain ⟨h0, s, hs, hv⟩ := h
    cases s with
    | addr i =>
      have hi : i < 13 := hs
      have hv : d.addr i = b := hv
      by_cases h11 : i < 11
      · exact .inl (.inl ⟨h0, i, h11, hv⟩)
      · by_cases hi11 : i = 11
        · subst hi11
          exact .inl (.inr ⟨hv ▸ h0, .inr hv.symm⟩)
        · have hi12 : i = 12 := by omega
          subst hi12
          exact .inr ⟨hv ▸ h0, .inr hv.symm⟩
    | ind j =>
      simp only [Slot.val] at hv
      split at hv
      · exact absurd hv.symm h0
      · next ha => exact .inl (.inr ⟨ha, .inl ⟨h0, j, hs, hv⟩⟩)
    | out j =>
      simp only [Slot.val] at hv
      split at hv
      · exact absurd hv.symm h0
      · next ha => exact .inr ⟨ha, .inl ⟨j, hs, hv ▸ h0, .inr hv.symm⟩⟩
    | inn j k =>
      simp only [Slot.val] at hv
      split at hv
      · exact absurd hv.symm h0
      · next ha =>
        split at hv
        · exact absurd hv.symm h0
        · next hp =>
          exact .inr ⟨ha, .inl ⟨j, hs.1, hp, .inl (mem_tableBlocks.mpr ⟨h0, k, hs.2, hv⟩)⟩⟩

/-! How the loops put these lists together. -/

namespace Frees

theorem turn {bl : Nat → List Nat} {k : Nat} (h : Frees sb v ((List.range k).flatMap bl) w)
    (h' : Frees sb w (bl k) v') : Frees sb v ((List.range (k+1)).flatMap bl) v' := by
  rw [List.range_succ, List.flatMap_append, List.flatMap_singleton]
  exact h.append h'

theorem entry_zero (h0 : b = 0) : Frees sb v (entryBlocks b) v := by
  unfold entryBlocks
  rw [if_pos h0]
  exact .nil v

theorem entry (h0 : b ≠ 0) (h : bfree sb v b = .ok v') : Frees sb v (entryBlocks b) v' := by
  unfold entryBlocks
  rw [if_neg h0]
  exact .single h

theorem freePtr (h : freePtr sb v b = .ok v') : Frees sb v (entryBlocks b) v' := by
  unfold Fs.freePtr at h
  split at h
  · next h0 => cases h; exact .entry_zero h0
  · next h0 => exact .entry h0 h

variable {below : Nat → List Nat}

theorem index_zero (h0 : a = 0) : Frees sb v (indexBlocks below a) v := by
  unfold indexBlocks
  rw [if_pos h0]
  exact .nil v

theorem index (h0 : a ≠ 0) (h : Frees sb v (below a) w) (h' : bfree sb w a = .ok v') :
    Frees sb v (indexBlocks below a) v' := by
  unfold indexBlocks
  rw [if_neg h0]
  exact h.append (.single h')

end Frees

end Xv6Labs.Fs
