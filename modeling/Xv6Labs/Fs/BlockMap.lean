import Xv6Labs.Fs.Truncate

/-! `bmap` as an update of the map from inodes and block indices to blocks: what it finds, what it
adds, and that every other entry stays. -/
namespace Xv6Labs.Fs
open Kit Bytes

variable {sb : Superblock} {v v' : Vol} {din : Nat → Dinode} {inum bn addr : Nat} {d d' : Dinode}

/-- The inodes, with the copy in memory of the one that is locked. -/
def Vol.inodes (sb : Superblock) (v : Vol) (inum : Nat) (d : Dinode) : Nat → Dinode :=
  Function.update (v.dinode sb) inum d

/-- Inode `i` is allocated and `bn` is the index of a block that a file may have. -/
def Indexed (sb : Superblock) (din : Nat → Dinode) (i bn : Nat) : Prop :=
  i < sb.ninodes ∧ (din i).type ≠ 0 ∧ bn < maxfile

/-- A `bmap` of `bn` on inode `inum` with the copy `d` has returned `addr` and left the copy `d'`
on the volume `v'`. -/
structure MapUpdate (sb : Superblock) (v : Vol) (inum : Nat) (d : Dinode) (bn addr : Nat)
    (d' : Dinode) (v' : Vol) : Prop where
  found : lookup v d bn ≠ 0 → addr = lookup v d bn ∧ d' = d ∧ v' = v
  missing : lookup v d bn = 0 →
    (addr ≠ 0 ∧ sb.IsData addr ∧ ¬ v.bit sb addr ∧ v'.disk addr = (fun _ => 0) ∧
      lookup v' d' bn = addr) ∨
    (addr = 0 ∧ balloc sb v' = (0, v') ∧ lookup v' d' bn = 0)
  others : ∀ i bn', Indexed sb (v.inodes sb inum d) i bn' → (i, bn') ≠ (inum, bn) →
    lookup v' (v'.inodes sb inum d' i) bn' = lookup v (v.inodes sb inum d i) bn'
  apart : ∀ i bn' i' bn'', Indexed sb (v'.inodes sb inum d') i bn' →
    Indexed sb (v'.inodes sb inum d') i' bn'' → (i, bn') ≠ (i', bn'') →
    lookup v' (v'.inodes sb inum d' i) bn' ≠ 0 →
    lookup v' (v'.inodes sb inum d' i) bn' ≠ lookup v' (v'.inodes sb inum d' i') bn''

theorem Indexed.exists (h : Indexed sb din inum bn) : Place.Exists sb din (inum, leafSlot bn) :=
  ⟨h.1, h.2.1, leafSlot_inRange h.2.2⟩

/-- Different entries of the map hold different blocks. -/
theorem Forest.lookup_ne (hF : Forest sb v din) {i i' bn' : Nat} (hx : Indexed sb din i bn)
    (hy : Indexed sb din i' bn') (hne : (i, bn) ≠ (i', bn')) (h0 : lookup v (din i) bn ≠ 0) :
    lookup v (din i) bn ≠ lookup v (din i') bn' := by
  intro heq
  have hplace : ((i, leafSlot bn) : Place) = (i', leafSlot bn') :=
    hF.inj ⟨hx.exists, h0⟩ ⟨hy.exists, fun h => h0 (heq.trans h)⟩ heq
  obtain ⟨rfl, hslot⟩ := Prod.mk.inj hplace
  exact hne (by rw [leafSlot_inj hslot])

/-- A block that has come to a place of the forest was free. -/
theorem Grows.was_free {X : Set Slot} {x : Place}
    (hF : Forest sb v (Function.update din inum d)) (h : Grows sb din inum X v d v' d')
    (hx : Place.Exists sb (Function.update din inum d) x)
    (h0 : valAt v (Function.update din inum d) x = 0)
    (h1 : valAt v' (Function.update din inum d') x ≠ 0) :
    sb.IsData (valAt v' (Function.update din inum d') x) ∧
      ¬ v.bit sb (valAt v' (Function.update din inum d') x) := by
  have hheld : x ∈ held sb v' (Function.update din inum d') := ⟨h.exists_iff.mpr hx, h1⟩
  refine ⟨h.forest.isData hheld, ?_⟩
  intro hbit
  obtain ⟨y, hy, hval⟩ := hF.bij.surjOn ⟨h.forest.isData hheld, hbit⟩
  have hkeep := h.keep y hy.1 hy.2
  have hy' : y ∈ held sb v' (Function.update din inum d') :=
    ⟨h.exists_iff.mpr hy.1, by rw [hkeep]; exact hy.2⟩
  have hyx := h.forest.inj hy' hheld (hkeep.trans hval)
  rw [hyx] at hy
  exact hy.2 h0

/-- The other inodes on the disk are where `bmap` does not write. -/
theorem Grows.inodes_eq {X : Set Slot} (hL : sb.Layout)
    (h : Grows sb (v.dinode sb) inum X v d v' d') {i : Nat} (hi : i < sb.ninodes) :
    v'.inodes sb inum d' i = Function.update (v.dinode sb) inum d' i := by
  unfold Vol.inodes
  by_cases heq : i = inum
  · subst heq
    simp
  · rw [Function.update_of_ne heq, Function.update_of_ne heq]
    exact dinode_congr (h.low _ (hL.iblock_lt hi))

theorem balloc_full (h : v.Full sb) : balloc sb v = (0, v) := by
  cases balloc_spec sb v with
  | inl hfull => exact hfull.1
  | inr hfree =>
    obtain ⟨b, hb, hbit, -⟩ := hfree
    exact absurd (h b hb) hbit

/-- `bmap` is an update of a partial map, for every inode and every index below `MAXFILE`. -/
theorem bmap_is_map_update (hL : sb.Layout) (hF : Forest sb v (v.inodes sb inum d))
    (hi : inum < sb.ninodes) (ht : d.type ≠ 0) (hbn : bn < maxfile) :
    ∃ addr d' v', bmap sb v d bn = .ok (addr, d', v') ∧
      MapUpdate sb v inum d bn addr d' v' := by
  obtain ⟨addr, d', v', heq, hg, haddr, hfull, hid⟩ := bmap_spec hL hF hi ht hbn
  have hidx : Indexed sb (v.inodes sb inum d) inum bn := by
    refine ⟨hi, ?_, hbn⟩
    simpa [Vol.inodes] using ht
  have hold : valAt v (Function.update (v.dinode sb) inum d) (inum, leafSlot bn) =
      lookup v d bn := by simp [valAt, lookup]
  have hnew : valAt v' (Function.update (v.dinode sb) inum d') (inum, leafSlot bn) =
      lookup v' d' bn := by simp [valAt, lookup]
  refine ⟨addr, d', v', heq, ?_, ?_, ?_, ?_⟩
  · intro hne
    obtain ⟨rfl, rfl⟩ := hid hne
    exact ⟨haddr, rfl, rfl⟩
  · intro h0
    by_cases ha : addr = 0
    · exact .inr ⟨ha, balloc_full (hfull ha), by rw [← haddr, ha]⟩
    · left
      have h1 : lookup v' d' bn ≠ 0 := haddr ▸ ha
      have hfree := hg.was_free hF hidx.exists (hold.trans h0) (by rw [hnew]; exact h1)
      have hzero := hg.zero _ hidx.exists (leafSlot_isLeaf bn) (hold.trans h0)
        (by rw [hnew]; exact h1)
      rw [hnew, ← haddr] at hfree hzero
      exact ⟨ha, hfree.1, hfree.2, hzero, haddr.symm⟩
  · intro i bn' hx hne
    rw [hg.inodes_eq hL hx.1]
    refine hg.same (i, leafSlot bn') hx.exists ?_
    by_cases hii : i = inum
    · right
      intro hway
      cases hway with
      | inl hslot => exact hne (by rw [hii, leafSlot_inj hslot])
      | inr hleaf => exact hleaf (leafSlot_isLeaf bn')
    · exact .inl hii
  · intro i bn' i' bn'' hx hy hne h0
    have hforest : ∀ j bn, Indexed sb (v'.inodes sb inum d') j bn →
        Indexed sb (Function.update (v.dinode sb) inum d') j bn := by
      intro j bn hj
      refine ⟨hj.1, ?_, hj.2.2⟩
      rw [← hg.inodes_eq hL hj.1]
      exact hj.2.1
    rw [hg.inodes_eq hL hx.1] at h0 ⊢
    rw [hg.inodes_eq hL hy.1]
    exact hg.forest.lookup_ne (hforest i bn' hx) (hforest i' bn'' hy) hne h0

/-- The second file again, grown until the disk is full. -/
def fullDisk : List Act := twoFiles ++ [.writei 1 counting kernelSrc (11*bsize + 1) (4*bsize)]

/-- The map of the file on the disk. -/
theorem inodes_dinode : v.inodes sb inum (v.dinode sb inum) = v.dinode sb :=
  Function.update_eq_self ..

/-- Behind the index block of the second file, one block is found and one is new; on the full disk
there is none. -/
theorem bmap_is_map_update_two_files :
    bmap smallSb (after twoFiles).vol ((after twoFiles).vol.dinode smallSb 2) 11 =
      .ok (16, (after twoFiles).vol.dinode smallSb 2, (after twoFiles).vol) ∧
    (∃ d' v', bmap smallSb (after twoFiles).vol ((after twoFiles).vol.dinode smallSb 2) 12 =
      .ok (17, d', v') ∧ v'.disk 17 = (fun _ => 0) ∧ lookup v' d' 12 = 17) ∧
    ∃ d' v', bmap smallSb (after fullDisk).vol ((after fullDisk).vol.dinode smallSb 2) 15 =
      .ok (0, d', v') ∧ balloc smallSb v' = (0, v') := by
  have hF : ∀ tr, Run (Step smallSb) (FS.boot smallVol) tr (after tr) →
      Forest smallSb (after tr).vol
        ((after tr).vol.inodes smallSb 2 ((after tr).vol.dinode smallSb 2)) := by
    intro tr hr
    rw [inodes_dinode]
    exact (inv_run smallImage hr).vol.forest
  have htwo := hF twoFiles (run_after (by decide +kernel))
  have hfull := hF fullDisk (run_after (by decide +kernel))
  have ht : ((after twoFiles).vol.dinode smallSb 2).type ≠ 0 := by decide +kernel
  have ht' : ((after fullDisk).vol.dinode smallSb 2).type ≠ 0 := by decide +kernel
  refine ⟨?_, ?_, ?_⟩
  · obtain ⟨addr, d', v', heq, hmap⟩ :=
      bmap_is_map_update smallImage.layout htwo (by decide) ht (show 11 < maxfile by decide)
    have hlook : lookup (after twoFiles).vol ((after twoFiles).vol.dinode smallSb 2) 11 = 16 := by
      decide +kernel
    obtain ⟨rfl, rfl, rfl⟩ := hmap.found (by rw [hlook]; decide)
    rw [heq, hlook]
  · obtain ⟨addr, d', v', heq, hmap⟩ :=
      bmap_is_map_update smallImage.layout htwo (by decide) ht (show 12 < maxfile by decide)
    have haddr : (bmap smallSb (after twoFiles).vol ((after twoFiles).vol.dinode smallSb 2)
        12).toOption.map Prod.fst = some 17 := by decide +kernel
    rw [heq] at haddr
    cases haddr
    obtain ⟨-, -, -, hzero, hlook⟩ | ⟨h0, -⟩ := hmap.missing (by decide +kernel)
    · exact ⟨d', v', heq, hzero, hlook⟩
    · exact absurd h0 (by decide)
  · obtain ⟨addr, d', v', heq, hmap⟩ :=
      bmap_is_map_update smallImage.layout hfull (by decide) ht' (show 15 < maxfile by decide)
    have haddr : (bmap smallSb (after fullDisk).vol ((after fullDisk).vol.dinode smallSb 2)
        15).toOption.map Prod.fst = some 0 := by decide +kernel
    rw [heq] at haddr
    cases haddr
    obtain ⟨h0, -⟩ | ⟨-, hnone, -⟩ := hmap.missing (by decide +kernel)
    · exact absurd rfl h0
    · exact ⟨d', v', heq, hnone⟩

end Xv6Labs.Fs
