import Xv6Labs.Fs.FirstFit
import Xv6Labs.Fs.Truncate

/-! The transaction of a write: which blocks `writei` passes to `log_write`, told from the pointers
and the bitmap before it. -/
namespace Xv6Labs.Fs
open Kit Bytes

/-- The places on the way to block `bn` of a file, from `addrs` on. -/
def way (bn : Nat) : List Slot :=
  if bn < ndirect then [.addr bn]
  else if bn - ndirect < nindirect then [.addr ndirect, .ind (bn - ndirect)]
  else [.addr (ndirect+1), .out ((bn - ndirect - nindirect)/nindirect),
    .inn ((bn - ndirect - nindirect)/nindirect) ((bn - ndirect - nindirect)%nindirect)]

/-- The places among `ss` that hold no block, in the order in which they are met. -/
def missing (v : Vol) (d : Dinode) (ss : List Slot) : List Slot :=
  ss.foldl (fun got s => if s.val v d = 0 ∧ s ∉ got then got ++ [s] else got) []

/-- The blocks of a file that hold its bytes from `off` to `off+n`. -/
def span (off n : Nat) : List Nat :=
  if n = 0 then [] else List.range' (off/bsize) ((off%bsize + n - 1)/bsize + 1)

section
variable (sb : Superblock) (v : Vol) (d : Dinode) (off n : Nat)

/-- The places that a write fills: those that are missing, as far as there are free blocks. -/
def filled : List Slot :=
  (missing v d ((span off n).flatMap way)).take (v.free sb).length

/-- The blocks of the file that it reaches before the disk is full. -/
def reached : List Nat :=
  (span off n).takeWhile fun bn => ∀ s ∈ way bn, s.val v d ≠ 0 ∨ s ∈ filled sb v d off n

end

/-- The places whose blocks are logged when the places `fs` are filled and the file data at `ws`
is written: these, and the index blocks that get an entry. -/
def touched (fs ws : List Slot) : Finset Slot :=
  (ws ++ fs ++ fs.filterMap fun s => s.up.map Prod.fst).toFinset

/-- The bitmap blocks in which the first `k` free blocks have their bits, counted from
`bmapstart`. -/
def bitmaps (sb : Superblock) (v : Vol) (k : Nat) : Finset Nat :=
  (((v.free sb).take k).map (· / bpb)).toFinset

section
variable {sb : Superblock} {v v0 v' : Vol} {din : Nat → Dinode} {d d0 d' : Dinode}
  {inum bn b n off : Nat} {s t : Slot} {ss tt fs ws : List Slot}

theorem way_inRange (hbn : bn < maxfile) (hs : s ∈ way bn) : s.InRange := by
  unfold way at hs
  simp only [ndirect, nindirect, maxfile] at hbn hs
  by_cases h1 : bn < 11
  · rw [if_pos h1, List.mem_singleton] at hs
    subst hs
    exact show bn < 13 by omega
  · rw [if_neg h1] at hs
    by_cases h2 : bn - 11 < 256
    · rw [if_pos h2, List.mem_pair] at hs
      rcases hs with rfl | rfl
      · exact show 11 < 13 by decide
      · exact h2
    · rw [if_neg h2] at hs
      simp only [List.mem_cons, List.not_mem_nil, or_false] at hs
      rcases hs with rfl | rfl | rfl
      · exact show 12 < 13 by decide
      · exact show (bn - 11 - 256)/256 < 256 by omega
      · exact show (bn - 11 - 256)/256 < 256 ∧ (bn - 11 - 256)%256 < 256 by omega

theorem mem_touched : s ∈ touched fs ws ↔ s ∈ ws ∨ s ∈ fs ∨ ∃ t ∈ fs, ∃ k, t.up = some (s, k) := by
  simp [touched]

theorem mem_touched_snoc : t ∈ touched (fs ++ [s]) ws ↔
    t ∈ touched fs ws ∨ t = s ∨ ∃ k, s.up = some (t, k) := by
  simp only [mem_touched, List.mem_append, List.mem_singleton]
  constructor
  · rintro (h | (h | h) | ⟨u, hu | rfl, h⟩)
    · exact .inl (.inl h)
    · exact .inl (.inr (.inl h))
    · exact .inr (.inl h)
    · exact .inl (.inr (.inr ⟨u, hu, h⟩))
    · exact .inr (.inr h)
  · rintro ((h | h | ⟨u, hu, h⟩) | h | h)
    · exact .inl h
    · exact .inr (.inl (.inl h))
    · exact .inr (.inr ⟨u, .inl hu, h⟩)
    · exact .inr (.inl (.inr h))
    · exact .inr (.inr ⟨s, .inr rfl, h⟩)

theorem touched_mono {fs' ws' : List Slot} (hf : fs ⊆ fs') (hw : ws ⊆ ws') :
    touched fs ws ⊆ touched fs' ws' := by
  intro s hs
  rw [mem_touched] at hs ⊢
  rcases hs with h | h | ⟨t, ht, h⟩
  · exact .inl (hw h)
  · exact .inr (.inl (hf h))
  · exact .inr (.inr ⟨t, hf ht, h⟩)

theorem bitmaps_mono {k k' : Nat} (h : k ≤ k') : bitmaps sb v k ⊆ bitmaps sb v k' := by
  intro x hx
  simp only [bitmaps, List.mem_toFinset, List.mem_map] at hx ⊢
  obtain ⟨b, hb, rfl⟩ := hx
  exact ⟨b, (List.take_prefix_take_left h).subset hb, rfl⟩

theorem missing_snoc : missing v d (ss ++ [s]) =
    if s.val v d = 0 ∧ s ∉ missing v d ss then missing v d ss ++ [s] else missing v d ss := by
  unfold missing
  rw [List.foldl_append]
  rfl

theorem missing_append (tt : List Slot) : missing v d ss <+: missing v d (ss ++ tt) := by
  induction tt using List.reverseRecOn with
  | nil => rw [List.append_nil]
  | append_singleton tt s ih =>
    rw [← List.append_assoc, missing_snoc]
    split
    · exact ih.trans (List.prefix_append ..)
    · exact ih

theorem mem_missing : s ∈ missing v d ss ↔ s ∈ ss ∧ s.val v d = 0 := by
  induction ss using List.reverseRecOn with
  | nil => simp [missing]
  | append_singleton ss t ih =>
    rw [missing_snoc]
    split
    · rename_i hnew
      rw [List.mem_append, ih, List.mem_append, List.mem_singleton]
      constructor
      · rintro (⟨hs, h0⟩ | rfl)
        · exact ⟨.inl hs, h0⟩
        · exact ⟨.inr rfl, hnew.1⟩
      · rintro ⟨hs | rfl, h0⟩
        · exact .inl ⟨hs, h0⟩
        · exact .inr rfl
    · rename_i hold
      rw [List.mem_append, List.mem_singleton, ih]
      constructor
      · rintro ⟨hs, h0⟩
        exact ⟨.inl hs, h0⟩
      · rintro ⟨hs | rfl, h0⟩
        · exact ⟨hs, h0⟩
        · by_contra hno
          exact hold ⟨h0, fun hmem => hno (ih.mp hmem)⟩

/-- From the copy `d0` of inode `inum` on `v0`, the places `fs` have been filled and the file data
at `ws` has been written, and this is what was logged. -/
structure Logs (sb : Superblock) (din : Nat → Dinode) (inum : Nat) (v0 : Vol) (d0 : Dinode)
    (fs ws : List Slot) (v : Vol) (d : Dinode) : Prop where
  forest : Forest sb v (Function.update din inum d)
  type : d.type = d0.type
  same : ∀ s : Slot, s.InRange → s ∉ fs → s.val v d = s.val v0 d0
  fill : ∀ s ∈ fs, s.InRange ∧ s.val v0 d0 = 0 ∧ s.val v d ≠ 0
  wrote : ∀ s ∈ ws, s.InRange ∧ s.val v d ≠ 0
  free : v0.free sb = fs.map (·.val v d) ++ v.free sb
  logged : ∃ l, v.logged = v0.logged ++ l ∧ ∀ c, c ∈ l ↔
    (∃ s ∈ fs, c = sb.bblock (s.val v d)) ∨ ∃ s ∈ touched fs ws, c = s.val v d

theorem Logs.refl (hF : Forest sb v (Function.update din inum d)) :
    Logs sb din inum v d [] [] v d where
  forest := hF
  type := rfl
  same := fun _ _ _ => rfl
  fill := by simp
  wrote := by simp
  free := rfl
  logged := ⟨[], by simp, by simp [touched]⟩

/-- A place that was touched holds a block. -/
theorem Logs.held (h : Logs sb din inum v0 d0 fs ws v d) (hs : s ∈ touched fs ws) :
    s.InRange ∧ s.val v d ≠ 0 := by
  rw [mem_touched] at hs
  rcases hs with hw | hf | ⟨t, ht, k, hup⟩
  · exact h.wrote s hw
  · exact ⟨(h.fill s hf).1, (h.fill s hf).2.2⟩
  · obtain ⟨hr, -, hne⟩ := h.fill t ht
    refine ⟨(hr.up hup).1, fun h0 => hne ?_⟩
    rw [Slot.val_up hup, if_pos h0]

/-- The block `b` was attached at the place `s`, and logged with its bitmap block and the index
block that holds the place. -/
structure Attached (sb : Superblock) (din : Nat → Dinode) (inum : Nat) (s : Slot) (b : Nat)
    (v : Vol) (d : Dinode) (v' : Vol) (d' : Dinode) : Prop where
  forest : Forest sb v' (Function.update din inum d')
  type : d'.type = d.type
  self : s.val v' d' = b
  ne : b ≠ 0
  same : ∀ t : Slot, t.InRange → t ≠ s → t.val v' d' = t.val v d
  free : v.free sb = b :: v'.free sb
  parent : ∀ p k, s.up = some (p, k) → p.InRange ∧ p.val v d ≠ 0
  logged : v'.logged = v.logged ++
    ([sb.bblock b, b] ++ (s.up.map fun q => q.1.val v d).toList)

theorem Logs.attach (h : Logs sb din inum v0 d0 fs ws v d) (hs : s.InRange) (hnew : s ∉ fs)
    (h0 : s.val v0 d0 = 0) (ha : Attached sb din inum s b v d v' d') :
    Logs sb din inum v0 d0 (fs ++ [s]) ws v' d' := by
  -- Whatever holds a block is not `s`, and keeps it.
  have hkeep : ∀ t : Slot, t.InRange → t.val v d ≠ 0 → t.val v' d' = t.val v d := by
    intro t ht hne
    refine ha.same t ht ?_
    rintro rfl
    exact hne ((h.same t hs hnew).trans h0)
  have hfs : ∀ t ∈ fs, t.val v' d' = t.val v d := fun t ht =>
    hkeep t (h.fill t ht).1 (h.fill t ht).2.2
  refine ⟨ha.forest, ha.type.trans h.type, ?_, ?_, ?_, ?_, ?_⟩
  · intro t ht hmem
    rw [List.mem_append, not_or, List.mem_singleton] at hmem
    rw [ha.same t ht hmem.2, h.same t ht hmem.1]
  · intro t ht
    rw [List.mem_append, List.mem_singleton] at ht
    rcases ht with ht | rfl
    · obtain ⟨hr, hz, hne⟩ := h.fill t ht
      exact ⟨hr, hz, by rw [hfs t ht]; exact hne⟩
    · exact ⟨hs, h0, by rw [ha.self]; exact ha.ne⟩
  · intro t ht
    obtain ⟨hr, hne⟩ := h.wrote t ht
    exact ⟨hr, by rw [hkeep t hr hne]; exact hne⟩
  · have hmap : fs.map (·.val v' d') = fs.map (·.val v d) := List.map_congr_left hfs
    rw [h.free, ha.free, List.map_append, hmap, List.append_assoc, List.map_singleton, ha.self]
    rfl
  · obtain ⟨l, hl, hmem⟩ := h.logged
    have htouch : ∀ t ∈ touched fs ws, t.val v' d' = t.val v d := fun t ht =>
      hkeep t (h.held ht).1 (h.held ht).2
    refine ⟨_, by rw [ha.logged, hl, List.append_assoc], ?_⟩
    intro c
    have hparent : c ∈ (s.up.map fun q => q.1.val v d).toList ↔
        ∃ p k, s.up = some (p, k) ∧ c = p.val v' d' := by
      rw [Option.mem_toList, Option.map_eq_some_iff]
      constructor
      · rintro ⟨⟨p, k⟩, hup, rfl⟩
        exact ⟨p, k, hup, (hkeep p (ha.parent p k hup).1 (ha.parent p k hup).2).symm⟩
      · rintro ⟨p, k, hup, rfl⟩
        exact ⟨(p, k), hup, (hkeep p (ha.parent p k hup).1 (ha.parent p k hup).2).symm⟩
    simp only [List.mem_append, List.mem_cons, List.not_mem_nil, or_false, hmem, hparent,
      mem_touched_snoc]
    constructor
    · rintro ((⟨t, ht, rfl⟩ | ⟨t, ht, rfl⟩) | (rfl | rfl) | ⟨p, k, hup, rfl⟩)
      · exact .inl ⟨t, .inl ht, by rw [hfs t ht]⟩
      · exact .inr ⟨t, .inl ht, (htouch t ht).symm⟩
      · exact .inl ⟨s, .inr rfl, by rw [ha.self]⟩
      · exact .inr ⟨s, .inr (.inl rfl), ha.self.symm⟩
      · exact .inr ⟨p, .inr (.inr ⟨k, hup⟩), rfl⟩
    · rintro (⟨t, ht | rfl, rfl⟩ | ⟨t, ht | rfl | ⟨k, hup⟩, rfl⟩)
      · exact .inl (.inl ⟨t, ht, by rw [hfs t ht]⟩)
      · exact .inr (.inl (.inl (by rw [ha.self])))
      · exact .inl (.inr ⟨t, ht, htouch t ht⟩)
      · exact .inr (.inl (.inr ha.self))
      · exact .inr (.inr ⟨t, k, hup, rfl⟩)

/-- New contents for a block of file data. -/
theorem Logs.rewrite (h : Logs sb din inum v0 d0 fs ws v d) (hL : sb.Layout)
    (hi : inum < sb.ninodes) (ht : d0.type ≠ 0) (hs : s.InRange) (hleaf : s.IsLeaf)
    (hne : s.val v d ≠ 0) (hdisk : ∀ c, c ≠ s.val v d → v'.disk c = v.disk c)
    (hlog : v'.logged = v.logged) :
    Logs sb din inum v0 d0 fs ws v' d ∧ s.val v' d = s.val v d := by
  have htype : d.type ≠ 0 := h.type ▸ ht
  obtain ⟨hsame, hbit, hforest⟩ := h.forest.writeLeaf hL (held_update hi htype hs hne) hleaf
    (by rw [valAt_update]; exact hdisk)
  have hkeep : ∀ t : Slot, t.InRange → t.val v' d = t.val v d := by
    intro t hr
    have heq := hsame _ (exists_update hi htype hr)
    rwa [valAt_update, valAt_update] at heq
  have hfs : ∀ t ∈ fs, t.val v' d = t.val v d := fun t ht => hkeep t (h.fill t ht).1
  refine ⟨⟨hforest, h.type, ?_, ?_, ?_, ?_, ?_⟩, hkeep s hs⟩
  · intro t hr hmem
    rw [hkeep t hr, h.same t hr hmem]
  · intro t hmem
    rw [hfs t hmem]
    exact h.fill t hmem
  · intro t hmem
    rw [hkeep t (h.wrote t hmem).1]
    exact h.wrote t hmem
  · have hmap : fs.map (·.val v' d) = fs.map (·.val v d) := List.map_congr_left hfs
    rw [h.free, hmap, free_congr hbit]
  · obtain ⟨l, hl, hmem⟩ := h.logged
    refine ⟨l, hlog.trans hl, fun c => (hmem c).trans (or_congr ?_ ?_)⟩
    · refine exists_congr fun t => and_congr_right fun hf => ?_
      rw [hfs t hf]
    · refine exists_congr fun t => and_congr_right fun hm => ?_
      rw [hkeep t (h.held hm).1]

theorem Logs.logWrite (h : Logs sb din inum v0 d0 fs ws v d) (hs : s.InRange)
    (hne : s.val v d ≠ 0) : Logs sb din inum v0 d0 fs (ws ++ [s]) (v.logWrite (s.val v d)) d := by
  have htouch : ∀ t, t ∈ touched fs (ws ++ [s]) ↔ t ∈ touched fs ws ∨ t = s := by
    intro t
    simp only [mem_touched, List.mem_append, List.mem_singleton]
    exact or_right_comm
  have hwrote : ∀ t ∈ ws ++ [s], t.InRange ∧ t.val v d ≠ 0 := by
    intro t ht
    rw [List.mem_append, List.mem_singleton] at ht
    rcases ht with ht | rfl
    · exact h.wrote t ht
    · exact ⟨hs, hne⟩
  obtain ⟨l, hl, hmem⟩ := h.logged
  refine ⟨⟨h.forest.bits, h.forest.bij⟩, h.type, h.same, h.fill, hwrote, h.free,
    l ++ [s.val v d], ?_, ?_⟩
  · change v.logged ++ [s.val v d] = _
    rw [hl, List.append_assoc]
  · intro c
    change _ ↔ (∃ t ∈ fs, c = sb.bblock (t.val v d)) ∨ ∃ t ∈ touched fs (ws ++ [s]), c = t.val v d
    simp only [List.mem_append, List.mem_singleton, hmem, htouch]
    constructor
    · rintro ((h1 | ⟨t, ht, rfl⟩) | rfl)
      · exact .inl h1
      · exact .inr ⟨t, .inl ht, rfl⟩
      · exact .inr ⟨s, .inr rfl, rfl⟩
    · rintro (h1 | ⟨t, ht | rfl, rfl⟩)
      · exact .inl (.inl h1)
      · exact .inl (.inr ⟨t, ht, rfl⟩)
      · exact .inr rfl

/-! One place on the way: it holds a block, or it gets the next one that is free, or there is
none. -/

/-- What the specifications of the two allocations have in common with `Attached`. -/
theorem Grows.attached (hg : Grows sb din inum {s} v d v' d') (hi : inum < sb.ninodes)
    (ht : d.type ≠ 0) (hself : s.val v' d' = b) (hne : b ≠ 0)
    (hfree : v.free sb = b :: v'.free sb)
    (hparent : ∀ p k, s.up = some (p, k) → p.InRange ∧ p.val v d ≠ 0)
    (hlog : v'.logged = v.logged ++
      ([sb.bblock b, b] ++ (s.up.map fun q => q.1.val v d).toList)) :
    Attached sb din inum s b v d v' d' where
  forest := hg.forest
  type := hg.fields.1
  self := hself
  ne := hne
  same := by
    intro t hr hts
    have hsame := hg.same (inum, t) (exists_update hi ht hr) (.inr hts)
    rwa [valAt_update, valAt_update] at hsame
  free := hfree
  parent := hparent
  logged := hlog

theorem allocAddr_attached (hL : sb.Layout) (hF : Forest sb v (Function.update din inum d))
    (hi : inum < sb.ninodes) (ht : d.type ≠ 0) {i : Nat} (hr : i < ndirect+2)
    (h0 : d.addr i = 0) :
    (v.free sb = [] ∧ allocAddr sb v d i = (0, d, v)) ∨
    ∃ b d' v', allocAddr sb v d i = (b, d', v') ∧ Attached sb din inum (.addr i) b v d v' d' := by
  obtain ⟨addr, d', v', heq, hg, haddr, -⟩ := allocAddr_spec hL hF hi ht hr
  have hdef := heq
  unfold allocAddr at hdef
  rw [if_pos h0] at hdef
  rcases Owns.balloc hF hL with ⟨hnil, hnone⟩ | ⟨b, hb0, hfree, htake⟩
  · rw [hnone] at hdef
    cases hdef
    exact .inl ⟨hnil, heq⟩
  · obtain ⟨m, rfl⟩ := Nat.exists_eq_succ_of_ne_zero hb0
    rw [htake] at hdef
    cases hdef
    refine .inr ⟨_, _, _, heq, hg.attached hi ht haddr.symm hb0 hfree ?_ ?_⟩
    · intro p k hup
      cases hup
    · change (v.logged ++ [_]) ++ [_] = _
      rw [List.append_assoc]
      rfl

theorem allocPtr_attached (hL : sb.Layout) (hF : Forest sb v (Function.update din inum d))
    (hi : inum < sb.ninodes) (ht : d.type ≠ 0) {p : Slot} {k : Nat} (hr : s.InRange)
    (hup : s.up = some (p, k)) (hp : p.val v d ≠ 0) (h0 : s.val v d = 0) :
    (v.free sb = [] ∧ allocPtr sb v (p.val v d) k = (0, v)) ∨
    ∃ b v', allocPtr sb v (p.val v d) k = (b, v') ∧ Attached sb din inum s b v d v' d := by
  obtain ⟨addr, v', heq, hg, haddr, -⟩ := allocPtr_spec hL hF hi ht hr hup hp
  have hptr : v.ptr (p.val v d) k = 0 := by
    rw [Slot.val_up hup, if_neg hp] at h0
    exact h0
  have hdef := heq
  unfold allocPtr at hdef
  rw [if_pos hptr] at hdef
  rcases Owns.balloc hF hL with ⟨hnil, hnone⟩ | ⟨b, hb0, hfree, htake⟩
  · rw [hnone] at hdef
    cases hdef
    exact .inl ⟨hnil, heq⟩
  · obtain ⟨m, rfl⟩ := Nat.exists_eq_succ_of_ne_zero hb0
    rw [htake] at hdef
    cases hdef
    have hoff : sb.OffBitmap (p.val v d) := by
      have hpar := (hF.isData (held_update hi ht (hr.up hup).1 hp)).off
      rwa [valAt_update] at hpar
    refine .inr ⟨_, _, heq, hg.attached hi ht haddr.symm hb0 ?_ ?_ ?_⟩
    · rw [hfree]
      congr 1
      exact (free_congr fun c hc => bit_write_off hL hc hoff).symm
    · intro q j hq
      rw [hup] at hq
      cases hq
      exact ⟨(hr.up hup).1, hp⟩
    · rw [hup]
      change ((v.logged ++ [_]) ++ [_]) ++ [_] = _
      rw [List.append_assoc, List.append_assoc]
      rfl

/-- After the places `pre`, the place `s` was looked at: `a` is its block, or 0 when the disk is
full. -/
def Ensures (sb : Superblock) (din : Nat → Dinode) (inum : Nat) (v0 : Vol) (d0 : Dinode)
    (pre : List Slot) (s : Slot) (ws : List Slot) (a : Nat) (v : Vol) (d : Dinode) : Prop :=
  (a ≠ 0 ∧ a = s.val v d ∧ Logs sb din inum v0 d0 (missing v0 d0 (pre ++ [s])) ws v d) ∨
  (a = 0 ∧ s.val v0 d0 = 0 ∧ s ∉ missing v0 d0 pre ∧ v.free sb = [] ∧
    Logs sb din inum v0 d0 (missing v0 d0 pre) ws v d)

section
variable {pre : List Slot}

theorem Logs.ensures_held (h : Logs sb din inum v0 d0 (missing v0 d0 pre) ws v d)
    (hs : s.InRange) (hne : s.val v d ≠ 0) :
    Ensures sb din inum v0 d0 pre s ws (s.val v d) v d := by
  refine .inl ⟨hne, rfl, ?_⟩
  rw [missing_snoc, if_neg]
  · exact h
  · rintro ⟨h0, hnew⟩
    exact hne ((h.same s hs hnew).trans h0)

/-- A place that is empty now was empty before, and none of those that were filled. -/
theorem Logs.empty (h : Logs sb din inum v0 d0 fs ws v d) (hs : s.InRange)
    (h0 : s.val v d = 0) : s ∉ fs ∧ s.val v0 d0 = 0 := by
  have hnew : s ∉ fs := fun hmem => (h.fill s hmem).2.2 h0
  exact ⟨hnew, (h.same s hs hnew).symm.trans h0⟩

theorem Logs.ensures_attached (h : Logs sb din inum v0 d0 (missing v0 d0 pre) ws v d)
    (hs : s.InRange) (h0 : s.val v d = 0) (ha : Attached sb din inum s b v d v' d') :
    Ensures sb din inum v0 d0 pre s ws b v' d' := by
  obtain ⟨hnew, hempty⟩ := h.empty hs h0
  refine .inl ⟨ha.ne, ha.self.symm, ?_⟩
  rw [missing_snoc, if_pos ⟨hempty, hnew⟩]
  exact h.attach hs hnew hempty ha

theorem Logs.ensures_full (h : Logs sb din inum v0 d0 (missing v0 d0 pre) ws v d)
    (hs : s.InRange) (h0 : s.val v d = 0) (hfull : v.free sb = []) :
    Ensures sb din inum v0 d0 pre s ws 0 v d := by
  obtain ⟨hnew, hempty⟩ := h.empty hs h0
  exact .inr ⟨rfl, hempty, hnew, hfull, h⟩

theorem Logs.allocAddr (h : Logs sb din inum v0 d0 (missing v0 d0 pre) ws v d) (hL : sb.Layout)
    (hi : inum < sb.ninodes) (ht : d0.type ≠ 0) {i : Nat} (hr : i < ndirect+2) :
    ∃ a d' v', Fs.allocAddr sb v d i = (a, d', v') ∧
      Ensures sb din inum v0 d0 pre (.addr i) ws a v' d' := by
  have hs : (Slot.addr i).InRange := hr
  by_cases h0 : d.addr i = 0
  · rcases allocAddr_attached hL h.forest hi (h.type ▸ ht) hr h0 with
      ⟨hfull, heq⟩ | ⟨b, d', v', heq, ha⟩
    · exact ⟨0, d, v, heq, h.ensures_full hs h0 hfull⟩
    · exact ⟨b, d', v', heq, h.ensures_attached hs h0 ha⟩
  · refine ⟨d.addr i, d, v, ?_, h.ensures_held hs h0⟩
    rw [Fs.allocAddr, if_neg h0]

theorem Logs.allocPtr (h : Logs sb din inum v0 d0 (missing v0 d0 pre) ws v d) (hL : sb.Layout)
    (hi : inum < sb.ninodes) (ht : d0.type ≠ 0) {p : Slot} {a k : Nat} (hr : s.InRange)
    (hup : s.up = some (p, k)) (ha : a = p.val v d) (hp : a ≠ 0) :
    ∃ a' v', Fs.allocPtr sb v a k = (a', v') ∧
      Ensures sb din inum v0 d0 pre s ws a' v' d := by
  subst ha
  by_cases h0 : s.val v d = 0
  · rcases allocPtr_attached hL h.forest hi (h.type ▸ ht) hr hup hp h0 with
      ⟨hfull, heq⟩ | ⟨b, v', heq, hatt⟩
    · exact ⟨0, v, heq, h.ensures_full hr h0 hfull⟩
    · exact ⟨b, v', heq, h.ensures_attached hr h0 hatt⟩
  · have hptr : v.ptr (p.val v d) k = s.val v d := by rw [Slot.val_up hup, if_neg hp]
    refine ⟨s.val v d, v, ?_, h.ensures_held hr h0⟩
    rw [Fs.allocPtr, hptr, if_neg h0]

/-- The disk was full at a place of `ss`, after those of `pre` and the ones before it. -/
def Stops (sb : Superblock) (din : Nat → Dinode) (inum : Nat) (v0 : Vol) (d0 : Dinode)
    (pre ss ws : List Slot) (v : Vol) (d : Dinode) : Prop :=
  ∃ mid s, mid ++ [s] <+: ss ∧ s.val v0 d0 = 0 ∧ s ∉ missing v0 d0 (pre ++ mid) ∧
    v.free sb = [] ∧ Logs sb din inum v0 d0 (missing v0 d0 (pre ++ mid)) ws v d

theorem Ensures.stops {mid tt : List Slot} {a : Nat}
    (h : Ensures sb din inum v0 d0 (pre ++ mid) s ws a v d) (ha : a = 0)
    (hmid : mid ++ [s] <+: tt) : Stops sb din inum v0 d0 pre tt ws v d := by
  rcases h with ⟨hne, -⟩ | ⟨-, h0, hnew, hfull, hlogs⟩
  · exact absurd ha hne
  · exact ⟨mid, s, hmid, h0, hnew, hfull, hlogs⟩

theorem Ensures.logs {a : Nat} (h : Ensures sb din inum v0 d0 pre s ws a v d) (ha : a ≠ 0) :
    a = s.val v d ∧ Logs sb din inum v0 d0 (missing v0 d0 (pre ++ [s])) ws v d := by
  rcases h with ⟨-, hok⟩ | ⟨h0, -⟩
  · exact hok
  · exact absurd h0 ha

/-- What a `bmap` of `bn` has logged: the way to the block is there, or the disk was full on
it. -/
def Leads (sb : Superblock) (din : Nat → Dinode) (inum : Nat) (v0 : Vol) (d0 : Dinode)
    (pre : List Slot) (bn : Nat) (ws : List Slot)
    (r : Except String (Nat × Dinode × Vol)) : Prop :=
  ∃ a d v, r = .ok (a, d, v) ∧
    ((a ≠ 0 ∧ a = (leafSlot bn).val v d ∧
      Logs sb din inum v0 d0 (missing v0 d0 (pre ++ way bn)) ws v d) ∨
    (a = 0 ∧ Stops sb din inum v0 d0 pre (way bn) ws v d))

theorem Logs.bmap_direct (h : Logs sb din inum v0 d0 (missing v0 d0 pre) ws v d)
    (hL : sb.Layout) (hi : inum < sb.ninodes) (ht : d0.type ≠ 0) (h1 : bn < ndirect) :
    Leads sb din inum v0 d0 pre bn ws (bmap sb v d bn) := by
  have hslot : leafSlot bn = .addr bn := by simp [leafSlot, h1]
  have hway : way bn = [.addr bn] := by simp [way, h1]
  obtain ⟨a, d1, v1, heq, he⟩ := h.allocAddr hL hi ht (show bn < ndirect+2 by omega)
  refine ⟨a, d1, v1, by rw [bmap, if_pos h1, heq], ?_⟩
  rw [hslot, hway]
  by_cases ha : a = 0
  · rw [← List.append_nil pre] at he
    exact .inr ⟨ha, he.stops ha (List.prefix_refl _)⟩
  · exact .inl ⟨ha, he.logs ha⟩

theorem Logs.bmap_indirect (h : Logs sb din inum v0 d0 (missing v0 d0 pre) ws v d)
    (hL : sb.Layout) (hi : inum < sb.ninodes) (ht : d0.type ≠ 0) (h1 : ¬ bn < ndirect)
    (h2 : bn - ndirect < nindirect) : Leads sb din inum v0 d0 pre bn ws (bmap sb v d bn) := by
  have hslot : leafSlot bn = .ind (bn - ndirect) := by simp [leafSlot, h1, h2]
  have hway : way bn = [.addr ndirect, .ind (bn - ndirect)] := by simp [way, h1, h2]
  unfold bmap
  rw [if_neg h1, if_pos h2]
  obtain ⟨a, d1, v1, heq1, he1⟩ := h.allocAddr hL hi ht (show ndirect < ndirect+2 by decide)
  by_cases ha : a = 0
  · subst ha
    rw [← List.append_nil pre] at he1
    refine ⟨0, d1, v1, by simp only [heq1], .inr ⟨rfl, he1.stops rfl ?_⟩⟩
    rw [hway]
    exact List.prefix_append ..
  · obtain ⟨ha1, hlogs1⟩ := he1.logs ha
    obtain ⟨b, v2, heq2, he2⟩ := hlogs1.allocPtr hL hi ht (s := .ind (bn - ndirect)) h2 rfl ha1 ha
    refine ⟨b, d1, v2, ?_, ?_⟩
    · rw [heq1]
      obtain ⟨m, rfl⟩ := Nat.exists_eq_succ_of_ne_zero ha
      simp only [heq2]
    · rw [hslot, hway]
      by_cases hb : b = 0
      · exact .inr ⟨hb, he2.stops hb (List.prefix_refl _)⟩
      · obtain ⟨hb2, hlogs2⟩ := he2.logs hb
        rw [List.append_assoc] at hlogs2
        exact .inl ⟨hb, hb2, hlogs2⟩

theorem Logs.bmap_doublyIndirect (h : Logs sb din inum v0 d0 (missing v0 d0 pre) ws v d)
    (hL : sb.Layout) (hi : inum < sb.ninodes) (ht : d0.type ≠ 0) (hbn : bn < maxfile)
    (h1 : ¬ bn < ndirect) (h2 : ¬ bn - ndirect < nindirect) :
    Leads sb din inum v0 d0 pre bn ws (bmap sb v d bn) := by
  have h3 : bn - ndirect - nindirect < ndoublyIndirect := by
    simp only [ndirect, nindirect, ndoublyIndirect, maxfile] at *
    omega
  have hrange := leafSlot_inRange hbn
  unfold bmap
  rw [if_neg h1, if_neg h2, if_pos h3]
  have hway : way bn = [.addr (ndirect+1), .out ((bn - ndirect - nindirect)/nindirect),
      leafSlot bn] := by
    simp [way, leafSlot, h1, h2]
  generalize hj : (bn - ndirect - nindirect)/nindirect = j at hway ⊢
  generalize hk : (bn - ndirect - nindirect)%nindirect = k
  have hup : (leafSlot bn).up = some (.out j, k) := by
    simp [leafSlot, h1, h2, hj, hk, Slot.up]
  have hupo : (Slot.out j).up = some (.addr (ndirect+1), j) := rfl
  obtain ⟨a, d1, v1, heq1, he1⟩ :=
    h.allocAddr hL hi ht (show ndirect+1 < ndirect+2 by decide)
  by_cases ha : a = 0
  · subst ha
    rw [← List.append_nil pre] at he1
    refine ⟨0, d1, v1, by simp only [heq1], .inr ⟨rfl, he1.stops rfl ?_⟩⟩
    rw [hway]
    exact List.prefix_append ..
  · obtain ⟨ha1, hlogs1⟩ := he1.logs ha
    obtain ⟨o, v2, heq2, he2⟩ := hlogs1.allocPtr hL hi ht (hrange.up hup).1 hupo ha1 ha
    obtain ⟨m, rfl⟩ := Nat.exists_eq_succ_of_ne_zero ha
    by_cases ho : o = 0
    · subst ho
      refine ⟨0, d1, v2, by rw [heq1]; simp only [heq2], .inr ⟨rfl, he2.stops rfl ?_⟩⟩
      rw [hway]
      exact List.prefix_append [_, _] _
    · obtain ⟨ho2, hlogs2⟩ := he2.logs ho
      rw [List.append_assoc] at hlogs2
      obtain ⟨b, v3, heq3, he3⟩ := hlogs2.allocPtr hL hi ht hrange hup ho2 ho
      refine ⟨b, d1, v3, ?_, ?_⟩
      · rw [heq1]
        obtain ⟨m', rfl⟩ := Nat.exists_eq_succ_of_ne_zero ho
        simp only [heq2, heq3]
      · rw [hway]
        by_cases hb : b = 0
        · exact .inr ⟨hb, he3.stops hb (List.prefix_refl _)⟩
        · obtain ⟨hb3, hlogs3⟩ := he3.logs hb
          rw [List.append_assoc] at hlogs3
          exact .inl ⟨hb, hb3, hlogs3⟩

theorem Logs.bmap (h : Logs sb din inum v0 d0 (missing v0 d0 pre) ws v d) (hL : sb.Layout)
    (hi : inum < sb.ninodes) (ht : d0.type ≠ 0) (hbn : bn < maxfile) :
    Leads sb din inum v0 d0 pre bn ws (Fs.bmap sb v d bn) := by
  by_cases h1 : bn < ndirect
  · exact h.bmap_direct hL hi ht h1
  · by_cases h2 : bn - ndirect < nindirect
    · exact h.bmap_indirect hL hi ht h1 h2
    · exact h.bmap_doublyIndirect hL hi ht hbn h1 h2

end

/-! The loop of `writei`. -/

/-- The blocks that lie ahead: the one at `off`, and those after this turn. -/
theorem span_cons {m : Nat} (hm : 0 < m) (hle : m ≤ n) (hblock : off%bsize + m ≤ bsize)
    (hlast : m < n → off%bsize + m = bsize) :
    span off n = off/bsize :: span (off+m) (n-m) := by
  unfold span
  rw [if_neg (by omega), List.range'_succ]
  congr 1
  by_cases hlt : m < n
  · have hend := hlast hlt
    have hdiv : (off+m)/bsize = off/bsize + 1 := by
      simp only [bsize] at *
      omega
    have hcount : (off%bsize + n - 1)/bsize = ((off+m)%bsize + (n-m) - 1)/bsize + 1 := by
      simp only [bsize] at *
      omega
    rw [if_neg (by omega), hdiv, hcount]
  · have hzero : (off%bsize + n - 1)/bsize = 0 := by
      simp only [bsize] at *
      omega
    rw [if_pos (by omega), hzero]
    rfl

theorem Logs.length_le (h : Logs sb din inum v0 d0 fs ws v d) :
    fs.length + (v.free sb).length = (v0.free sb).length := by
  rw [h.free, List.length_append, List.length_map]

/-- What has been filled in the order of the file is the first part of `filled`. -/
theorem Logs.filled_prefix (h : Logs sb din inum v0 d0 fs ws v d)
    (hfs : fs <+: missing v0 d0 ((span off n).flatMap way)) : fs <+: filled sb v0 d0 off n := by
  rw [filled, List.prefix_take_iff]
  have hlen := h.length_le
  exact ⟨hfs, by omega⟩

theorem Logs.filled_eq (h : Logs sb din inum v0 d0 fs ws v d)
    (hfs : fs <+: missing v0 d0 ((span off n).flatMap way)) (hfull : v.free sb = []) :
    fs = filled sb v0 d0 off n := by
  have hlen := h.length_le
  rw [hfull, List.length_nil, Nat.add_zero] at hlen
  rw [filled, ← hlen]
  exact List.prefix_iff_eq_take.mp hfs

section
variable {past rest : List Nat}

/-- The blocks whose ways are complete are reached. -/
theorem past_reached (hspan : span off n = past ++ rest)
    (hfs : missing v0 d0 (past.flatMap way) <+: filled sb v0 d0 off n) :
    reached sb v0 d0 off n = past ++
      rest.takeWhile fun bn => ∀ s ∈ way bn, s.val v0 d0 ≠ 0 ∨ s ∈ filled sb v0 d0 off n := by
  rw [reached, hspan, List.takeWhile_append_of_pos]
  intro bn hbn
  rw [decide_eq_true_iff]
  intro s hs
  by_cases h0 : s.val v0 d0 = 0
  · exact .inr (hfs.subset (mem_missing.mpr ⟨List.mem_flatMap.mpr ⟨bn, hbn, hs⟩, h0⟩))
  · exact .inl h0

theorem missing_span (hspan : span off n = past ++ rest) :
    missing v0 d0 (past.flatMap way) <+: missing v0 d0 ((span off n).flatMap way) := by
  rw [hspan, List.flatMap_append]
  exact missing_append _

/-- As long as there are blocks enough, all of the way is filled and all of the span reached. -/
theorem filled_all (h : (missing v0 d0 ((span off n).flatMap way)).length ≤ (v0.free sb).length) :
    filled sb v0 d0 off n = missing v0 d0 ((span off n).flatMap way) ∧
      reached sb v0 d0 off n = span off n := by
  have hfilled : filled sb v0 d0 off n = missing v0 d0 ((span off n).flatMap way) :=
    List.take_of_length_le h
  refine ⟨hfilled, ?_⟩
  rw [past_reached (List.append_nil _).symm (by rw [hfilled]), List.takeWhile_nil,
    List.append_nil]

/-- All turns are done: everything is filled and reached. -/
theorem Logs.finished (h : Logs sb din inum v0 d0 (missing v0 d0 (past.flatMap way))
    (past.map leafSlot) v d) (hspan : span off n = past) :
    Logs sb din inum v0 d0 (filled sb v0 d0 off n)
      ((reached sb v0 d0 off n).map leafSlot) v d := by
  subst hspan
  have hlen := h.length_le
  obtain ⟨hfilled, hreached⟩ := filled_all
    (show (missing v0 d0 ((span off n).flatMap way)).length ≤ (v0.free sb).length by omega)
  rw [hfilled, hreached]
  exact h

/-- The disk is full on the way to `bn`: what could be filled is filled, and `bn` is not
reached. -/
theorem Stops.finished (h : Stops sb din inum v0 d0 (past.flatMap way) (way bn)
    (past.map leafSlot) v d) (hspan : span off n = past ++ bn :: rest) :
    Logs sb din inum v0 d0 (filled sb v0 d0 off n)
      ((reached sb v0 d0 off n).map leafSlot) v d := by
  obtain ⟨mid, s, ⟨after, hway⟩, h0, hnew, hfull, hlogs⟩ := h
  have hall : (span off n).flatMap way =
      past.flatMap way ++ mid ++ (s :: after ++ rest.flatMap way) := by
    rw [hspan, List.flatMap_append, List.flatMap_cons, ← hway]
    simp
  have hpre : missing v0 d0 (past.flatMap way ++ mid) <+:
      missing v0 d0 ((span off n).flatMap way) := by
    rw [hall]
    exact missing_append _
  have hfilled := hlogs.filled_eq hpre hfull
  have hreached : reached sb v0 d0 off n = past := by
    rw [past_reached hspan (hfilled ▸ missing_append mid), List.takeWhile_cons_of_neg,
      List.append_nil]
    rw [decide_eq_true_iff]
    intro hon
    have hs : s ∈ way bn := by
      rw [← hway]
      simp
    rcases hon s hs with hne | hmem
    · exact hne h0
    · rw [← hfilled] at hmem
      exact hnew hmem
  rw [← hfilled, hreached]
  exact hlogs

/-- What a whole run of the loop has logged: all that it could fill and reach, or less of it if a
copy fails. -/
def Outcome (sb : Superblock) (din : Nat → Dinode) (inum : Nat) (v0 : Vol) (d0 : Dinode)
    (fault : Nat → Nat → Option Nat) (off n : Nat) (v : Vol) (d : Dinode) : Prop :=
  ∃ fs ws, Logs sb din inum v0 d0 fs ws v d ∧ fs <+: filled sb v0 d0 off n ∧
    ws <+: (reached sb v0 d0 off n).map leafSlot ∧
    ((∀ t m, fault t m = none) →
      fs = filled sb v0 d0 off n ∧ ws = (reached sb v0 d0 off n).map leafSlot)

theorem Logs.outcome {fault : Nat → Nat → Option Nat}
    (h : Logs sb din inum v0 d0 (filled sb v0 d0 off n) ((reached sb v0 d0 off n).map leafSlot)
      v d) : Outcome sb din inum v0 d0 fault off n v d :=
  ⟨_, _, h, List.prefix_refl _, List.prefix_refl _, fun _ => ⟨rfl, rfl⟩⟩

/-- A failed copy: the block at hand has its way, and is not logged. -/
theorem Logs.outcome_fault {fault : Nat → Nat → Option Nat}
    (h : Logs sb din inum v0 d0 (missing v0 d0 ((past ++ [bn]).flatMap way)) (past.map leafSlot) v d)
    (hspan : span off n = past ++ bn :: rest) (hfault : ∃ t m, fault t m ≠ none) :
    Outcome sb din inum v0 d0 fault off n v d := by
  have hnext : span off n = (past ++ [bn]) ++ rest := by
    rw [hspan]
    simp
  have hfilled := h.filled_prefix (missing_span hnext)
  refine ⟨_, _, h, hfilled, ?_, ?_⟩
  · rw [past_reached hnext hfilled, List.map_append, List.map_append, List.append_assoc]
    exact List.prefix_append ..
  · intro hno
    obtain ⟨t, m, hsome⟩ := hfault
    exact absurd (hno t m) hsome

section
variable (src : Buf) (o m tot : Nat) {a : Nat} (h : Logs sb din inum v0 d0 fs ws v d)
  (hL : sb.Layout) (hi : inum < sb.ninodes) (ht : d0.type ≠ 0) (hbn : bn < maxfile) (ha : a ≠ 0)
  (hval : a = (leafSlot bn).val v d)
include h hL hi ht hbn ha hval

theorem Logs.copyin : Logs sb din inum v0 d0 fs ws (v.copyin a o m src tot) d ∧
    (leafSlot bn).val (v.copyin a o m src tot) d = a := by
  subst hval
  exact h.rewrite hL hi ht (leafSlot_inRange hbn) (leafSlot_isLeaf bn) ha
    (fun _ hc => disk_copyin_ne hc) rfl

theorem Logs.copyin_logWrite : Logs sb din inum v0 d0 fs (ws ++ [leafSlot bn])
    ((v.copyin a o m src tot).logWrite a) d := by
  obtain ⟨hcopied, hkeep⟩ := h.copyin src o m tot hL hi ht hbn ha hval
  have hlog := hcopied.logWrite (leafSlot_inRange hbn) (by rw [hkeep]; exact ha)
  rwa [hkeep] at hlog

end

theorem chunk_last {tot : Nat} (h : chunk off n tot < n - tot) :
    off%bsize + chunk off n tot = bsize := by
  have hmod : off%bsize < bsize := Nat.mod_lt _ (by decide)
  unfold chunk at h ⊢
  omega

theorem writeLoop_logs (src : Buf) (fault : Nat → Nat → Option Nat) (hL : sb.Layout)
    (hi : inum < sb.ninodes) (ht : d0.type ≠ 0) {off0 tot : Nat} (hn : n < 2^32) (fuel : Nat)
    (h : Logs sb din inum v0 d0 (missing v0 d0 (past.flatMap way)) (past.map leafSlot) v d)
    (hspan : span off0 n = past ++ span off (n - tot)) (htot : tot ≤ n)
    (hfuel : n - tot ≤ fuel) (hend : off + (n - tot) ≤ maxfile*bsize) :
    ∃ t o d' v', writeLoop sb src fault n fuel v d off tot = .ok (t, o, d', v') ∧
      Outcome sb din inum v0 d0 fault off0 n v' d' := by
  induction fuel generalizing v d off tot past with
  | zero =>
    have h0 : n - tot = 0 := by omega
    rw [h0] at hspan
    exact ⟨_, _, _, _, rfl, (h.finished (hspan.trans (List.append_nil _))).outcome⟩
  | succ fuel ih =>
    unfold writeLoop
    by_cases hlt : tot < n
    · have hoff : off < maxfile*bsize := by omega
      have hblock := chunk_block off n tot
      have hpos := chunk_pos off hlt
      have hle := chunk_le off n tot
      have hlast : chunk off n tot < n - tot → off%bsize + chunk off n tot = bsize := chunk_last
      generalize chunk off n tot = m at hblock hpos hle hlast
      rw [span_cons hpos hle hblock hlast] at hspan
      obtain ⟨a, d1, v1, heq, hlead⟩ := h.bmap hL hi ht (block_lt hoff)
      rw [if_pos hlt, heq]
      simp only
      rcases hlead with ⟨ha, hval, hlogs⟩ | ⟨ha, hstop⟩
      · rw [if_neg ha]
        have hway : past.flatMap way ++ way (off/bsize) = (past ++ [off/bsize]).flatMap way := by
          simp
        rw [hway] at hlogs
        cases hfault : fault tot m with
        | some k =>
          have hcopied := hlogs.copyin src (off%bsize) (min k m) tot hL hi ht (block_lt hoff) ha hval
          exact ⟨_, _, _, _, rfl, hcopied.1.outcome_fault hspan ⟨tot, m, by simp [hfault]⟩⟩
        | none =>
          simp only
          have hsmall : maxfile*bsize < 2^32 := by decide
          rw [u32_of_lt (show off+m < 2^32 by omega), u32_of_lt (show tot+m < 2^32 by omega)]
          have hlog := hlogs.copyin_logWrite src (off%bsize) m tot hL hi ht (block_lt hoff) ha hval
          have hmap : past.map leafSlot ++ [leafSlot (off/bsize)] =
              (past ++ [off/bsize]).map leafSlot := by simp
          rw [hmap] at hlog
          have hnext : span off0 n = (past ++ [off/bsize]) ++ span (off+m) (n - (tot+m)) := by
            rw [hspan, Nat.sub_sub]
            simp
          exact ih hlog hnext (by omega) (by omega) (by omega)
      · rw [if_pos ha]
        exact ⟨_, _, _, _, rfl, (hstop.finished hspan).outcome⟩
    · rw [if_neg hlt]
      have h0 : n - tot = 0 := by omega
      rw [h0] at hspan
      exact ⟨_, _, _, _, rfl, (h.finished (hspan.trans (List.append_nil _))).outcome⟩

end

end

end Xv6Labs.Fs
