import Xv6Labs.Fs.Truncate

/-! `ireclaim`, which `fsinit` runs at boot: the inodes that lost their last link before a crash,
and kept their blocks because a process had them open, are freed. -/
namespace Xv6Labs.Fs
open Kit Bytes

variable {sb : Superblock} {v v' v'' : Vol} {inum : Nat} {fs : FS} {S T : Set Nat}

namespace FS
variable (sb : Superblock) (fs : FS)

/-- `iunlock` by a process that holds the sleep-locks `locked`. -/
def iunlock (locked : Fin ninode → Bool) (i : Fin ninode) : Except String FS :=
  if locked i = false ∨ (fs.inode i).ref < 1 then .error "iunlock" else .ok fs

/-- The body of the loop, for one inode number: the lock that is held in it is that of `ilock`. -/
def reclaimOne (inum : Nat) : Except String FS :=
  if (fs.vol.dinode sb inum).type ≠ 0 ∧ (fs.vol.dinode sb inum).nlink = 0 then do
    let (i, fs) ← fs.iget inum
    let fs ← fs.ilock sb i
    let fs ← fs.iunlock (· = i) i
    fs.iput sb i
  else return fs

def ireclaim : Except String FS :=
  ((List.range (sb.ninodes - 1)).map (· + 1)).foldlM (fun fs inum => fs.reclaimOne sb inum) fs

/-- No inode is referenced. -/
def Idle : Prop := ∀ e, (fs.inode e).ref = 0

end FS

/-- An allocated inode without a link. -/
def Orphan (sb : Superblock) (v : Vol) (inum : Nat) : Prop :=
  (v.dinode sb inum).type ≠ 0 ∧ (v.dinode sb inum).nlink = 0

/-- The orphans `S` have been freed between `v` and `v'`, and nothing else has changed. -/
structure Reclaimed (sb : Superblock) (S : Set Nat) (v v' : Vol) : Prop where
  ok : VolOk sb v'
  gone : ∀ i ∈ S, (v'.dinode sb i).type = 0
  dinode : ∀ i < sb.ninodes, i ∉ S → v'.dinode sb i = v.dinode sb i
  disk : ∀ c, sb.datastart ≤ c → v'.disk c = v.disk c
  bit : ∀ b, v'.bit sb b ↔ v.bit sb b ∧ ∀ i ∈ S, b ∉ treeBlocks v (v.dinode sb i)

namespace Reclaimed

theorem refl (h : VolOk sb v) : Reclaimed sb ∅ v v := by
  refine ⟨h, fun _ hi => absurd hi (Set.notMem_empty _), fun _ _ _ => rfl, fun _ _ => rfl, ?_⟩
  intro b
  exact ⟨fun hb => ⟨hb, fun _ hi => absurd hi (Set.notMem_empty _)⟩, fun hb => hb.1⟩

/-- The tree of an inode that is not among the freed ones. -/
theorem treeBlocks_same (h : Reclaimed sb S v v') (hv : VolOk sb v) (hi : inum < sb.ninodes)
    (hS : inum ∉ S) (ht : (v.dinode sb inum).type ≠ 0) :
    treeBlocks v' (v'.dinode sb inum) = treeBlocks v (v.dinode sb inum) := by
  have hval : ∀ s : Slot, s.InRange → s.val v' (v'.dinode sb inum) = s.val v (v.dinode sb inum) := by
    intro s hs
    refine val_same hv.forest h.disk hi ht ?_ hs
    intro j
    rw [h.dinode inum hi hS]
  ext b
  constructor
  · intro hb
    obtain ⟨h0, s, hs, hsb⟩ := hb
    exact ⟨h0, s, hs, hval s hs ▸ hsb⟩
  · intro hb
    obtain ⟨h0, s, hs, hsb⟩ := hb
    exact ⟨h0, s, hs, (hval s hs).trans hsb⟩

/-- One more orphan. -/
theorem insert (h : Reclaimed sb S v v') (hv : VolOk sb v) (hi : inum < sb.ninodes)
    (hS : inum ∉ S) (hSn : ∀ i ∈ S, i < sb.ninodes) (ht : (v.dinode sb inum).type ≠ 0)
    (h' : Reclaimed sb {inum} v' v'') : Reclaimed sb (Insert.insert inum S) v v'' := by
  refine ⟨h'.ok, ?_, ?_, fun c hc => (h'.disk c hc).trans (h.disk c hc), ?_⟩
  · intro i hmem
    cases Set.mem_insert_iff.mp hmem with
    | inl hie => exact h'.gone i hie
    | inr hiS =>
      have hne : i ≠ inum := fun hie => hS (hie ▸ hiS)
      rw [h'.dinode i (hSn i hiS) hne]
      exact h.gone i hiS
  · intro i hlt hmem
    have hne : i ≠ inum := fun hie => hmem (Set.mem_insert_iff.mpr (.inl hie))
    have hiS : i ∉ S := fun hiS => hmem (Set.mem_insert_iff.mpr (.inr hiS))
    exact (h'.dinode i hlt hne).trans (h.dinode i hlt hiS)
  · intro b
    have hb' : v''.bit sb b ↔ v'.bit sb b ∧ b ∉ treeBlocks v (v.dinode sb inum) := by
      rw [h'.bit b, ← h.treeBlocks_same hv hi hS ht]
      simp
    rw [hb', h.bit b, Set.forall_mem_insert]
    tauto

end Reclaimed

/-! One turn of the loop. -/

/-- `itrunc` and the `iupdate` that frees the inode, as `iput` calls them. -/
theorem reclaimed_itrunc (hL : sb.Layout) (h : VolOk sb v) (hi : inum < sb.ninodes)
    (ht : (v.dinode sb inum).type ≠ 0) :
    ∃ v', itrunc sb v inum (v.dinode sb inum) = .ok ((v.dinode sb inum).emptied, v') ∧
      Reclaimed sb {inum} v (iupdate sb v' inum { (v.dinode sb inum).emptied with type := 0 }) := by
  obtain ⟨v', heq, -, -, htouch⟩ := touched_itrunc hL h hi ht
  obtain ⟨w, heq', hfree, hfrees⟩ := itrunc_spec hL h.forest hi ht
  have hv' : v' = iupdate sb w inum (v.dinode sb inum).emptied := by
    rw [heq] at heq'
    cases heq'
    rfl
  refine ⟨v', heq, htouch.ok, ?_, ?_, ?_, ?_⟩
  · intro i hie
    rw [Set.mem_singleton_iff.mp hie, dinode_iupdate, if_pos rfl]
  · intro i hlt hie
    exact htouch.dinode i hlt hie
  · intro c hc
    rw [iupdate, disk_write_ne (hL.data_ne_iblock hc hi), hv', iupdate,
      disk_write_ne (hL.data_ne_iblock hc hi)]
    exact hfree.disk c (.inr hc)
  · intro b
    rw [bit_iupdate hL hi, hv', bit_iupdate hL hi, hfrees.bit, mem_freedBlocks]
    simp

namespace FS

/-- On an idle table `iget` takes a free entry. -/
theorem Idle.iget (h : fs.Idle) (inum : Nat) : ∃ e, fs.iget inum =
    .ok (e, fs.set e { fs.inode e with inum := inum, ref := 1, valid := false }) := by
  have hnone : ((List.finRange ninode).find? fun i =>
      (fs.inode i).ref > 0 ∧ (fs.inode i).inum = inum) = none := by
    refine List.find?_eq_none.mpr fun i _ => ?_
    simp [h i]
  have hfree : ((List.finRange ninode).find? fun i => (fs.inode i).ref = 0) = some 0 := by
    rw [List.finRange_succ, List.find?_cons_of_pos]
    simp [h 0]
  refine ⟨0, ?_⟩
  unfold FS.iget
  rw [hnone, hfree]

/-- The entry of an orphan after `ilock`. -/
theorem ilock_entry (e : Fin ninode) (d : Dinode) (ht : (fs.vol.dinode sb inum).type ≠ 0) :
    (fs.set e ⟨inum, 1, false, d⟩).ilock sb e =
      .ok (fs.set e ⟨inum, 1, true, fs.vol.dinode sb inum⟩) := by
  have hload : (fs.set e ⟨inum, 1, false, d⟩).vol = fs.vol := rfl
  unfold FS.ilock
  simp only [inode_set, if_true, hload]
  rw [if_neg (by decide), if_neg (by decide), if_neg ht]
  simp [FS.set]

theorem iunlock_entry (e : Fin ninode) (d : Dinode) :
    (fs.set e ⟨inum, 1, true, d⟩).iunlock (· = e) e = .ok (fs.set e ⟨inum, 1, true, d⟩) := by
  unfold FS.iunlock
  rw [inode_set, if_pos rfl, if_neg (by simp)]

/-- The last reference to an orphan. -/
theorem iput_entry (e : Fin ninode) {d d' : Dinode} {w : Vol} (hn : d.nlink = 0)
    (htr : Fs.itrunc sb fs.vol inum d = .ok (d', w)) :
    (fs.set e ⟨inum, 1, true, d⟩).iput sb e =
      .ok ({ fs with vol := iupdate sb w inum { d' with type := 0 } }.set e
        ⟨inum, 0, false, { d' with type := 0 }⟩) := by
  have hload : (fs.set e ⟨inum, 1, true, d⟩).vol = fs.vol := rfl
  unfold FS.iput
  simp only [inode_set, if_true, hload]
  rw [if_pos ⟨trivial, trivial, hn⟩, htr]
  change Except.ok _ = Except.ok _
  simp [FS.set]

/-- An orphan goes through `iget`, `ilock`, `iunlock` and `iput`, and is freed. -/
theorem Idle.reclaimOne_orphan (h : fs.Idle) (hL : sb.Layout) (hv : VolOk sb fs.vol)
    (hi : inum < sb.ninodes) (ho : Orphan sb fs.vol inum) :
    ∃ fs', fs.reclaimOne sb inum = .ok fs' ∧ fs'.Idle ∧ Reclaimed sb {inum} fs.vol fs'.vol := by
  obtain ⟨e, hget⟩ := h.iget inum
  obtain ⟨v', htr, hrec⟩ := reclaimed_itrunc hL hv hi ho.1
  have hcond : (fs.vol.dinode sb inum).type ≠ 0 ∧ (fs.vol.dinode sb inum).nlink = 0 := ho
  have hone : fs.reclaimOne sb inum = ((fs.set e ⟨inum, 1, false, (fs.inode e).copy⟩).ilock sb e).bind
      fun fs => (fs.iunlock (· = e) e).bind fun fs => fs.iput sb e := by
    unfold FS.reclaimOne
    rw [if_pos hcond, hget]
    rfl
  rw [ilock_entry e _ ho.1] at hone
  simp only [Except.bind] at hone
  rw [iunlock_entry] at hone
  simp only at hone
  rw [iput_entry e ho.2 htr] at hone
  refine ⟨_, hone, ?_, hrec⟩
  intro j
  rw [inode_set]
  split
  · rfl
  · exact h j

theorem reclaimOne_other (ho : ¬ Orphan sb fs.vol inum) : fs.reclaimOne sb inum = .ok fs := by
  have hcond : ¬ ((fs.vol.dinode sb inum).type ≠ 0 ∧ (fs.vol.dinode sb inum).nlink = 0) := ho
  unfold FS.reclaimOne
  rw [if_neg hcond]
  rfl

end FS

/-! The whole loop. -/

/-- The orphans among the first `n` numbers from 1 on. -/
def orphans (sb : Superblock) (v : Vol) (n : Nat) : Set Nat :=
  {i | 0 < i ∧ i ≤ n ∧ Orphan sb v i}

theorem orphans_succ (n : Nat) : orphans sb v (n+1) =
    {i | i = n+1 ∧ Orphan sb v i} ∪ orphans sb v n := by
  ext i
  simp only [orphans, Set.mem_union, Set.mem_ofPred_eq]
  constructor
  · intro hi
    by_cases hie : i = n+1
    · exact .inl ⟨hie, hi.2.2⟩
    · exact .inr ⟨hi.1, by omega, hi.2.2⟩
  · intro hi
    cases hi with
    | inl hi => exact ⟨by omega, by omega, hi.2⟩
    | inr hi => exact ⟨hi.1, by omega, hi.2.2⟩

/-- `ireclaim` after `n` turns. -/
theorem ireclaim_prefix (hL : sb.Layout) (hv : VolOk sb fs.vol) (hidle : fs.Idle) (n : Nat)
    (hn : n ≤ sb.ninodes - 1) :
    ∃ fs', ((List.range n).map (· + 1)).foldlM (fun fs inum => fs.reclaimOne sb inum) fs = .ok fs' ∧
      fs'.Idle ∧ Reclaimed sb (orphans sb fs.vol n) fs.vol fs'.vol := by
  induction n with
  | zero =>
    have hnone : orphans sb fs.vol 0 = ∅ :=
      Set.eq_empty_of_forall_notMem fun i hi => by have := hi.1; have := hi.2.1; omega
    exact ⟨fs, rfl, hidle, hnone ▸ .refl hv⟩
  | succ n ih =>
    obtain ⟨fs₁, heq, hidle₁, hrec⟩ := ih (by omega)
    have hlt : n+1 < sb.ninodes := by omega
    have hnot : n+1 ∉ orphans sb fs.vol n := fun hmem => by have := hmem.2.1; omega
    have hsame : Orphan sb fs₁.vol (n+1) ↔ Orphan sb fs.vol (n+1) := by
      unfold Orphan
      rw [hrec.dinode (n+1) hlt hnot]
    rw [List.range_succ, List.map_append, List.foldlM_append, heq]
    simp only [List.map_cons, List.map_nil, List.foldlM_cons, List.foldlM_nil, bind_pure]
    by_cases ho : Orphan sb fs.vol (n+1)
    · obtain ⟨fs₂, hone, hidle₂, hrec₂⟩ := hidle₁.reclaimOne_orphan hL hrec.ok hlt (hsame.mpr ho)
      have hset : orphans sb fs.vol (n+1) = insert (n+1) (orphans sb fs.vol n) := by
        rw [orphans_succ, Set.insert_eq]
        congr 1
        ext i
        exact ⟨fun hi => hi.1, fun hi => ⟨hi, hi.symm ▸ ho⟩⟩
      rw [hset]
      refine ⟨fs₂, hone, hidle₂, hrec.insert hv hlt hnot ?_ ho.1 hrec₂⟩
      intro i hi
      have := hi.2.1
      omega
    · have hset : orphans sb fs.vol (n+1) = orphans sb fs.vol n := by
        rw [orphans_succ, Set.union_eq_right]
        exact fun i hi => absurd (hi.1 ▸ hi.2) ho
      rw [hset]
      exact ⟨fs₁, FS.reclaimOne_other (fun h => ho (hsame.mp h)), hidle₁, hrec⟩

/-- Recovery after a crash at any point between two calls: on the volume of any reachable state
the boot-time `ireclaim` ends without a panic and leaves no orphan, the other inodes with their
contents are untouched, and the blocks that become free are those of the orphans. -/
theorem ireclaim_recovers (hI : Image sb v) {tr : List Act} (hr : Run (Step sb) (FS.boot v) tr fs) :
    ∃ fs', (FS.boot fs.vol).ireclaim sb = .ok fs' ∧ Image sb fs'.vol ∧ (∀ e, ¬ fs'.Held e) ∧
      (∀ i < sb.ninodes, 0 < i → ¬ Orphan sb fs'.vol i) ∧
      (∀ i < sb.ninodes, (0 < i → ¬ Orphan sb fs.vol i) →
        fs'.vol.dinode sb i = fs.vol.dinode sb i ∧ ((fs.vol.dinode sb i).type ≠ 0 →
          content fs'.vol (fs'.vol.dinode sb i) = content fs.vol (fs.vol.dinode sb i))) ∧
      ∀ b, fs'.vol.bit sb b ↔ fs.vol.bit sb b ∧ ∀ i < sb.ninodes, 0 < i → Orphan sb fs.vol i →
        b ∉ treeBlocks fs.vol (fs.vol.dinode sb i) := by
  have hv : VolOk sb (FS.boot fs.vol).vol := (inv_run hI hr).vol
  have hidle : (FS.boot fs.vol).Idle := fun _ => rfl
  obtain ⟨fs', heq, hidle', hrec⟩ :=
    ireclaim_prefix hI.layout hv hidle (sb.ninodes - 1) le_rfl
  have hmem : ∀ i < sb.ninodes, 0 < i → Orphan sb fs.vol i →
      i ∈ orphans sb fs.vol (sb.ninodes - 1) := fun i hi h0 ho => ⟨h0, by omega, ho⟩
  refine ⟨fs', heq, ⟨hI.layout, hrec.ok⟩, fun e => Nat.not_lt.mpr (Nat.le_of_eq (hidle' e)),
    ?_, ?_, ?_⟩
  · intro i hi h0 ho
    by_cases hold : Orphan sb fs.vol i
    · exact ho.1 (hrec.gone i (hmem i hi h0 hold))
    · have hsame := hrec.dinode i hi fun hin => hold hin.2.2
      unfold Orphan at ho
      rw [hsame] at ho
      exact hold ho
  · intro i hi hno
    have hsame := hrec.dinode i hi fun hin => hno hin.1 hin.2.2
    refine ⟨hsame, fun ht => ?_⟩
    rw [hsame]
    exact content_congr (hv.files i hi ht) rfl fun bn hbn h0 =>
      ⟨lookup_same hv.forest hrec.disk hi ht (fun _ => rfl) hbn,
        hrec.disk _ (lookup_isData hv.forest hi ht hbn h0).1⟩
  · intro b
    rw [hrec.bit b]
    refine and_congr_right fun _ => ⟨fun hb i hi h0 ho => hb i (hmem i hi h0 ho), fun hb i hi => ?_⟩
    exact hb i (by have := hi.1; have := hi.2.1; omega) hi.1 hi.2.2

/-- A crash with two files written, the first of which has a link. -/
def linkedAndOpen : List Act :=
  [.ialloc 2, .ilock 0, .setLink 0 0 0 1, .writei 0 counting kernelSrc 0 5, .ialloc 2, .ilock 1,
    .writei 1 counting kernelSrc 0 1500]

theorem ireclaim_recovers_open_file :
    Run (Step smallSb) (FS.boot smallVol) linkedAndOpen (after linkedAndOpen) ∧
    Orphan smallSb (after linkedAndOpen).vol 2 ∧ (after linkedAndOpen).vol.bit smallSb 5 ∧
    ∃ fs', (FS.boot (after linkedAndOpen).vol).ireclaim smallSb = .ok fs' ∧
      ¬ Orphan smallSb fs'.vol 2 ∧ ¬ fs'.vol.bit smallSb 5 ∧
      content fs'.vol (fs'.vol.dinode smallSb 1) = [0, 1, 2, 3, 4] := by
  have hr : Run (Step smallSb) (FS.boot smallVol) linkedAndOpen (after linkedAndOpen) :=
    run_after (by decide +kernel)
  have htype : ∀ i < 3, 0 < i → ((after linkedAndOpen).vol.dinode smallSb i).type ≠ 0 := by
    decide +kernel
  have hlink : ((after linkedAndOpen).vol.dinode smallSb 1).nlink ≠ 0 := by decide +kernel
  have horphan : Orphan smallSb (after linkedAndOpen).vol 2 :=
    ⟨htype 2 (by decide) (by decide), by decide +kernel⟩
  obtain ⟨fs', heq, -, -, hnone, hkeep, hbit⟩ := ireclaim_recovers smallImage hr
  refine ⟨hr, horphan, by decide +kernel, fs', heq, hnone 2 (by decide) (by decide), ?_, ?_⟩
  · intro hb
    -- Block 5 is the first block of the orphan.
    refine ((hbit 5).mp hb).2 2 (by decide) (by decide) horphan ⟨by decide, .addr 0, ?_, ?_⟩
    · exact Nat.zero_lt_succ _
    · decide +kernel
  · obtain ⟨-, hsame⟩ := hkeep 1 (by decide) fun _ ho => hlink ho.2
    rw [hsame (htype 1 (by decide) (by decide))]
    decide +kernel

end Xv6Labs.Fs
