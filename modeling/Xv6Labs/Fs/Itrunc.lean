import Xv6Labs.Kit.Exec
import Xv6Labs.Fs.Frees

/-! `itrunc` frees the tree of one inode, every block of it once, and nothing else. -/
namespace Xv6Labs.Fs
open Kit Bytes

variable {sb : Superblock} {v₀ v v' : Vol} {din : Nat → Dinode} {x : Place} {inum : Nat}
  {R R' : Set Place} {d : Dinode}

/-- The state of a truncation that started on the volume `v₀`: the blocks at the places `R` have
been freed, and so far only the bitmap has changed. -/
structure Freeing (sb : Superblock) (v₀ : Vol) (din : Nat → Dinode) (R : Set Place) (v : Vol) :
    Prop where
  owns : Owns sb v (valAt v₀ din) (held sb v₀ din \ R)
  disk : ∀ c, sb.OffBitmap c → v.disk c = v₀.disk c

namespace Freeing

theorem start (hF : Forest sb v₀ din) : Freeing sb v₀ din ∅ v₀ :=
  ⟨by rw [Set.sdiff_empty]; exact hF, fun _ _ => rfl⟩

/-- Places without a block may be counted as freed. -/
theorem congr (h : Freeing sb v₀ din R v)
    (hR : ∀ x ∈ held sb v₀ din, x ∈ R' ↔ x ∈ R) : Freeing sb v₀ din R' v := by
  have hset : held sb v₀ din \ R' = held sb v₀ din \ R := by
    ext x
    constructor
    · intro hx; exact ⟨hx.1, fun hxR => hx.2 ((hR x hx.1).mpr hxR)⟩
    · intro hx; exact ⟨hx.1, fun hxR => hx.2 ((hR x hx.1).mp hxR)⟩
  exact ⟨by rw [hset]; exact h.owns, h.disk⟩

theorem ptr (h : Freeing sb v₀ din R v) {a : Nat} (ha : sb.IsData a) (k : Nat) :
    v.ptr a k = v₀.ptr a k := by
  unfold Vol.ptr
  rw [h.disk a ha.off]

/-- `bfree` of a block that is still in use. -/
theorem bfree (hL : sb.Layout) (h : Freeing sb v₀ din R v) (hx : x ∈ held sb v₀ din) (hxR : x ∉ R) :
    ∃ v', bfree sb v (valAt v₀ din x) = .ok v' ∧ Freeing sb v₀ din (insert x R) v' := by
  obtain ⟨heq, howns⟩ := h.owns.release ⟨hx, hxR⟩
  have hdata : sb.IsData (valAt v₀ din x) := (h.owns.bij.mapsTo ⟨hx, hxR⟩).1
  refine ⟨_, heq, ?_, ?_⟩
  · rw [Set.sdiff_sdiff, Set.union_singleton] at howns
    exact howns
  · intro c hc
    rw [release_disk hc hL hdata.2]
    exact h.disk c hc

theorem freePtr (hL : sb.Layout) (h : Freeing sb v₀ din R v) (hx : x.Exists sb din) (hxR : x ∉ R) :
    ∃ v', freePtr sb v (valAt v₀ din x) = .ok v' ∧ Freeing sb v₀ din (insert x R) v' := by
  unfold Fs.freePtr
  by_cases h0 : valAt v₀ din x = 0
  · refine ⟨v, by rw [if_pos h0], h.congr ?_⟩
    intro y hy
    have hyx : y ≠ x := fun hyx => hy.2 (hyx ▸ h0)
    simp [hyx]
  · rw [if_neg h0]
    exact h.bfree hL ⟨hx, h0⟩ hxR

end Freeing

/-- One turn more of a loop that collects places. -/
theorem mem_union_lt_succ {Q : Nat → Place → Prop} {k : Nat} :
    x ∈ R ∪ {x | ∃ j < k+1, Q j x} ↔ Q k x ∨ x ∈ R ∪ {x | ∃ j < k, Q j x} := by
  constructor
  · intro hx
    cases hx with
    | inl hx => exact .inr (.inl hx)
    | inr hx =>
      obtain ⟨j, hj, hx⟩ := hx
      by_cases hjk : j = k
      · exact .inl (hjk ▸ hx)
      · exact .inr (.inr ⟨j, by omega, hx⟩)
  · intro hx
    cases hx with
    | inl hx => exact .inr ⟨k, by omega, hx⟩
    | inr hx =>
      cases hx with
      | inl hx => exact .inl hx
      | inr hx =>
        obtain ⟨j, hj, hx⟩ := hx
        exact .inr ⟨j, by omega, hx⟩

theorem freeTable_spec (hL : sb.Layout) (hF : Forest sb v₀ din) (h : Freeing sb v₀ din R v)
    {p : Slot} {c : Nat → Slot} (hp : (inum, p) ∈ held sb v₀ din)
    (hup : ∀ k, (c k).up = some (p, k)) (hrange : ∀ k < nindirect, (c k).InRange)
    (hR : ∀ k < nindirect, (inum, c k) ∉ R) :
    ∃ v', freeTable sb v (valAt v₀ din (inum, p)) = .ok v' ∧
      Freeing sb v₀ din (R ∪ {x | ∃ k < nindirect, x = (inum, c k)}) v' ∧
      Frees sb v (tableBlocks v₀ (valAt v₀ din (inum, p))) v' := by
  have hloop := foldlM_range (P := fun n w =>
      Freeing sb v₀ din (R ∪ {x | ∃ k < n, x = (inum, c k)}) w ∧
      Frees sb v ((List.range n).flatMap fun j =>
        entryBlocks (v₀.ptr (valAt v₀ din (inum, p)) j)) w)
    (f := fun v j => Fs.freePtr sb v (v.ptr (valAt v₀ din (inum, p)) j)) (a := v) nindirect ?_ ?_
  · exact hloop
  · exact ⟨h.congr (by simp), .nil v⟩
  · intro k hk w hw
    obtain ⟨hw, hfrees⟩ := hw
    have hval : valAt v₀ din (inum, c k) = w.ptr (valAt v₀ din (inum, p)) k := by
      rw [hw.ptr (hF.isData hp), valAt_up (hup k) hp.2]
    have hnot : (inum, c k) ∉ R ∪ {x | ∃ k' < k, x = (inum, c k')} := by
      intro hmem
      cases hmem with
      | inl hm => exact hR k hk hm
      | inr hm =>
        obtain ⟨k', hk', heq⟩ := hm
        have hcc := (Prod.mk.inj heq).2
        have h1 := hup k
        rw [hcc, hup k'] at h1
        cases h1
        omega
    have hex : Place.Exists sb din (inum, c k) := ⟨hp.1.1, hp.1.2.1, hrange k hk⟩
    obtain ⟨w', heq, hw'⟩ := hw.freePtr hL hex hnot
    refine ⟨w', hval ▸ heq, hw'.congr fun x _ => mem_union_lt_succ, hfrees.turn ?_⟩
    rw [← valAt_up (hup k) hp.2]
    exact .freePtr heq

/-- The places below entry `j` of the outer block, the inner block included. -/
def outerPlaces (inum j : Nat) : Set Place :=
  {x | x = (inum, .out j) ∨ ∃ k < nindirect, x = (inum, .inn j k)}

theorem outerPlaces_disjoint {j j' : Nat} {x : Place} (hne : j' ≠ j)
    (hx : x ∈ outerPlaces inum j) : x ∉ outerPlaces inum j' := by
  intro hx'
  cases hx with
  | inl hx =>
    subst hx
    cases hx' with
    | inl h' => cases h'; exact hne rfl
    | inr h' => obtain ⟨_, _, h'⟩ := h'; cases h'
  | inr hx =>
    obtain ⟨k, _, rfl⟩ := hx
    cases hx' with
    | inl h' => cases h'
    | inr h' => obtain ⟨_, _, h'⟩ := h'; cases h'; exact hne rfl

theorem freeOuter_spec (hL : sb.Layout) (hF : Forest sb v₀ din) (h : Freeing sb v₀ din R v)
    (hp : (inum, Slot.addr (ndirect+1)) ∈ held sb v₀ din)
    (hR : ∀ j, ∀ x ∈ outerPlaces inum j, x ∉ R) :
    ∃ v', freeOuter sb v (valAt v₀ din (inum, .addr (ndirect+1))) = .ok v' ∧
      Freeing sb v₀ din (R ∪ {x | ∃ j < nindirect, x ∈ outerPlaces inum j}) v' ∧
      Frees sb v (outerBlocks v₀ (valAt v₀ din (inum, .addr (ndirect+1)))) v' := by
  have hloop := foldlM_range (P := fun n w =>
      Freeing sb v₀ din (R ∪ {x | ∃ j < n, x ∈ outerPlaces inum j}) w ∧
      Frees sb v ((List.range n).flatMap fun j => indexBlocks (tableBlocks v₀)
        (v₀.ptr (valAt v₀ din (inum, .addr (ndirect+1))) j)) w)
    (f := fun v j => if v.ptr (valAt v₀ din (inum, .addr (ndirect+1))) j = 0 then .ok v
      else (freeTable sb v (v.ptr (valAt v₀ din (inum, .addr (ndirect+1))) j)).bind fun v =>
        Fs.bfree sb v (v.ptr (valAt v₀ din (inum, .addr (ndirect+1))) j)) (a := v) nindirect ?_ ?_
  · exact hloop
  · exact ⟨h.congr (by simp), .nil v⟩
  · intro j hj w hw
    obtain ⟨hw, hfrees⟩ := hw
    have hup : (Slot.out j).up = some (.addr (ndirect+1), j) := rfl
    have hval : ∀ R' w', Freeing sb v₀ din R' w' →
        w'.ptr (valAt v₀ din (inum, .addr (ndirect+1))) j = valAt v₀ din (inum, .out j) := by
      intro R' w' hw'
      rw [hw'.ptr (hF.isData hp), valAt_up hup hp.2]
    have hfresh : ∀ x ∈ outerPlaces inum j, x ∉ R ∪ {x | ∃ j' < j, x ∈ outerPlaces inum j'} := by
      intro x hx hmem
      cases hmem with
      | inl hm => exact hR j x hx hm
      | inr hm =>
        obtain ⟨j', hj', hx'⟩ := hm
        exact outerPlaces_disjoint (Nat.ne_of_lt hj') hx hx'
    rw [hval _ _ hw]
    by_cases h0 : valAt v₀ din (inum, .out j) = 0
    · refine ⟨w, if_pos h0, hw.congr ?_, hfrees.turn (.index_zero ?_)⟩
      · intro x hx
        rw [mem_union_lt_succ]
        refine ⟨fun hor => hor.resolve_left ?_, .inr⟩
        intro hxo
        cases hxo with
        | inl hxo => exact hx.2 (hxo ▸ h0)
        | inr hxo =>
          obtain ⟨k, _, rfl⟩ := hxo
          have hup : (Slot.inn j k).up = some (.out j, k) := rfl
          exact hx.2 (valAt_up_zero hup h0)
      · rw [← valAt_up hup hp.2]
        exact h0
    · rw [if_neg h0]
      have hout : (inum, Slot.out j) ∈ held sb v₀ din := ⟨⟨hp.1.1, hp.1.2.1, hj⟩, h0⟩
      obtain ⟨w1, heq1, hw1, hfrees1⟩ := freeTable_spec hL hF hw hout (c := Slot.inn j)
        (fun _ => rfl) (fun k hk => ⟨hj, hk⟩) (fun k hk => hfresh _ (.inr ⟨k, hk, rfl⟩))
      have hnot : (inum, Slot.out j) ∉ (R ∪ {x | ∃ j' < j, x ∈ outerPlaces inum j'}) ∪
          {x | ∃ k < nindirect, x = (inum, Slot.inn j k)} := by
        intro hmem
        cases hmem with
        | inl hm => exact hfresh _ (.inl rfl) hm
        | inr hm => obtain ⟨_, _, hm⟩ := hm; cases hm
      obtain ⟨w2, heq2, hw2⟩ := hw1.bfree hL hout hnot
      refine ⟨w2, ?_, hw2.congr ?_, hfrees.turn ?_⟩
      · rw [heq1]
        simp only [Except.bind, hval _ _ hw1, heq2]
      · intro x _
        rw [mem_union_lt_succ]
        constructor
        · intro hx
          cases hx with
          | inl hx =>
            cases hx with
            | inl hx => exact .inl hx
            | inr hx => exact .inr (.inr hx)
          | inr hx => exact .inr (.inl hx)
        · intro hx
          cases hx with
          | inl hx => exact .inl (.inl hx)
          | inr hx =>
            cases hx with
            | inl hx => exact .inr hx
            | inr hx => exact .inl (.inr hx)
      · rw [← valAt_up hup hp.2]
        exact hfrees1.index h0 heq2

/-- `d'` is `d` with the entries `X` of `addrs` cleared. -/
structure Cleared (d : Dinode) (X : Nat → Prop) (d' : Dinode) : Prop where
  zero : ∀ j, X j → d'.addr j = 0
  same : ∀ j, ¬ X j → d'.addr j = d.addr j
  fields : d'.type = d.type ∧ d'.major = d.major ∧ d'.minor = d.minor ∧ d'.nlink = d.nlink

theorem Cleared.set {X Y : Nat → Prop} {d' : Dinode} (h : Cleared d X d') {i : Nat}
    (hi : i < ndirect+2) (hXY : ∀ j, Y j ↔ j = i ∨ X j) : Cleared d Y (d'.setAddr i 0) := by
  have haddr : ∀ j, (d'.setAddr i 0).addr j = if j = i then 0 else d'.addr j :=
    fun j => Dinode.addr_setAddr (by decide) hi
  refine ⟨?_, ?_, h.fields⟩
  · intro j hj
    rw [haddr]
    split
    · rfl
    · next hji => exact h.zero j (((hXY j).mp hj).resolve_left hji)
  · intro j hj
    rw [haddr, if_neg (fun hji => hj ((hXY j).mpr (.inl hji)))]
    exact h.same j fun hX => hj ((hXY j).mpr (.inr hX))

theorem Cleared.skip {X Y : Nat → Prop} {d' : Dinode} (h : Cleared d X d') {i : Nat}
    (h0 : d'.addr i = 0) (hXY : ∀ j, Y j ↔ j = i ∨ X j) : Cleared d Y d' := by
  refine ⟨?_, fun j hj => h.same j fun hX => hj ((hXY j).mpr (.inr hX)), h.fields⟩
  intro j hj
  cases (hXY j).mp hj with
  | inl hji => rw [hji]; exact h0
  | inr hX => exact h.zero j hX

/-- The places of `addrs` up to `n`. -/
def directPlaces (inum n : Nat) : Set Place := {x | ∃ i < n, x = (inum, .addr i)}

theorem directPlaces_succ {i : Nat} :
    directPlaces inum (i+1) = insert (inum, .addr i) (directPlaces inum i) := by
  ext x
  constructor
  · intro hx
    obtain ⟨j, hj, rfl⟩ := hx
    by_cases hji : j = i
    · exact .inl (by rw [hji])
    · exact .inr ⟨j, by omega, rfl⟩
  · intro hx
    cases hx with
    | inl hx => exact ⟨i, by omega, hx⟩
    | inr hx =>
      obtain ⟨j, hj, rfl⟩ := hx
      exact ⟨j, by omega, rfl⟩

theorem freeDirect_spec (hL : sb.Layout) (hF : Forest sb v₀ din) (hi : inum < sb.ninodes)
    (ht : (din inum).type ≠ 0) :
    ∃ d' v', freeDirect sb v₀ (din inum) = .ok (d', v') ∧
      Freeing sb v₀ din (directPlaces inum ndirect) v' ∧
      Frees sb v₀ (directBlocks (din inum)) v' ∧ Cleared (din inum) (· < ndirect) d' := by
  have hloop := foldlM_range (P := fun n (dv : Dinode × Vol) =>
      Freeing sb v₀ din (directPlaces inum n) dv.2 ∧
      Frees sb v₀ ((List.range n).flatMap fun i => entryBlocks ((din inum).addr i)) dv.2 ∧
      Cleared (din inum) (· < n) dv.1)
    (f := fun (dv : Dinode × Vol) i => if dv.1.addr i = 0 then .ok dv
      else (Fs.bfree sb dv.2 (dv.1.addr i)).map fun v => (dv.1.setAddr i 0, v))
    (a := (din inum, v₀)) ndirect ?_ ?_
  · obtain ⟨⟨d', v'⟩, heq, h⟩ := hloop
    exact ⟨d', v', heq, h⟩
  · refine ⟨(Freeing.start hF).congr ?_, .nil v₀, fun j hj => absurd hj (Nat.not_lt_zero j),
      fun _ _ => rfl, rfl, rfl, rfl, rfl⟩
    intro x _
    simp [directPlaces]
  · intro i hin dv hdv
    obtain ⟨hfree, hfrees, hclear⟩ := hdv
    have haddr : dv.1.addr i = valAt v₀ din (inum, .addr i) :=
      hclear.same i (Nat.lt_irrefl i)
    have hsucc : ∀ j, j < i+1 ↔ j = i ∨ j < i := by omega
    by_cases h0 : dv.1.addr i = 0
    · refine ⟨dv, if_pos h0, hfree.congr ?_, hfrees.turn (.entry_zero (haddr.symm.trans h0)),
        hclear.skip h0 hsucc⟩
      intro x hx
      have hne : x ≠ (inum, .addr i) := by
        intro hxe
        rw [hxe] at hx
        exact hx.2 (haddr ▸ h0)
      rw [directPlaces_succ]
      simp [hne]
    · have hr : i < ndirect+2 := by omega
      have hheld : (inum, Slot.addr i) ∈ held sb v₀ din := ⟨⟨hi, ht, hr⟩, haddr ▸ h0⟩
      have hnot : (inum, Slot.addr i) ∉ directPlaces inum i := by
        intro hx
        obtain ⟨j, hj, heq⟩ := hx
        cases heq
        exact Nat.lt_irrefl _ hj
      obtain ⟨w, heq, hw⟩ := hfree.bfree hL hheld hnot
      refine ⟨(dv.1.setAddr i 0, w), ?_, directPlaces_succ ▸ hw,
        hfrees.turn (.entry hheld.2 heq), hclear.set hr hsucc⟩
      rw [if_neg h0, haddr, heq]
      rfl

/-- One index block with the places `C` below it. -/
theorem freeIndex_spec {free : Vol → Nat → Except String Vol} {below : Nat → List Nat}
    {C : Set Place} {X Y : Nat → Prop} {i : Nat} (hL : sb.Layout) (h : Freeing sb v₀ din R v)
    (hclear : Cleared (din inum) X d)
    (hi : inum < sb.ninodes) (ht : (din inum).type ≠ 0) (hr : i < ndirect+2) (hXi : ¬ X i)
    (hXY : ∀ j, Y j ↔ j = i ∨ X j) (hR : (inum, Slot.addr i) ∉ R ∪ C)
    (hfree : (inum, Slot.addr i) ∈ held sb v₀ din →
      ∃ v', free v (valAt v₀ din (inum, .addr i)) = .ok v' ∧ Freeing sb v₀ din (R ∪ C) v' ∧
        Frees sb v (below (valAt v₀ din (inum, .addr i))) v')
    (hzero : valAt v₀ din (inum, .addr i) = 0 → ∀ x ∈ C, x ∉ held sb v₀ din) :
    ∃ d' v', freeIndex sb free v d i = .ok (d', v') ∧
      Freeing sb v₀ din (insert (inum, .addr i) (R ∪ C)) v' ∧
      Frees sb v (indexBlocks below ((din inum).addr i)) v' ∧ Cleared (din inum) Y d' := by
  have haddr : d.addr i = valAt v₀ din (inum, .addr i) := hclear.same i hXi
  unfold freeIndex
  by_cases h0 : d.addr i = 0
  · refine ⟨d, v, if_pos h0, h.congr ?_, .index_zero (haddr.symm.trans h0), hclear.skip h0 hXY⟩
    intro x hx
    constructor
    · intro hxm
      cases hxm with
      | inl hxe =>
        rw [hxe] at hx
        exact absurd (haddr ▸ h0) hx.2
      | inr hxm => exact hxm.resolve_right fun hC => hzero (haddr ▸ h0) x hC hx
    · intro hxR; exact .inr (.inl hxR)
  · have hheld : (inum, Slot.addr i) ∈ held sb v₀ din := ⟨⟨hi, ht, hr⟩, haddr ▸ h0⟩
    obtain ⟨w, heq, hw, hfrees⟩ := hfree hheld
    obtain ⟨w', heq', hw'⟩ := hw.bfree hL hheld hR
    refine ⟨d.setAddr i 0, w', ?_, hw', hfrees.index hheld.2 heq', hclear.set hr hXY⟩
    rw [if_neg h0, haddr, heq]
    simp [bind, Except.bind, pure, Except.pure, heq']

/-- An inode without blocks. -/
def Dinode.emptied (d : Dinode) : Dinode := { d with size := 0, addrs := fun _ => 0 }

theorem val_of_zero {d : Dinode} (h : ∀ j, d.addr j = 0) (s : Slot) : s.val v d = 0 := by
  induction s using Slot.up_induction with
  | root j => exact h j
  | step s p k hup ih => rw [Slot.val_up hup, if_pos ih]

@[simp] theorem addr_emptied (d : Dinode) (j : Nat) : d.emptied.addr j = 0 := by
  unfold Dinode.addr Dinode.emptied
  split <;> rfl

/-- All places of an inode. -/
def allPlaces (inum : Nat) : Set Place := {x | x.1 = inum}

/-- What the three parts of `itrunc` free, put together. -/
theorem mem_allPlaces (hx : x ∈ held sb v din) : x ∈ allPlaces inum ↔
    x ∈ insert (inum, .addr (ndirect+1)) (insert (inum, .addr ndirect)
      (directPlaces inum ndirect ∪ {x | ∃ k < nindirect, x = (inum, Slot.ind k)}) ∪
        {x | ∃ j < nindirect, x ∈ outerPlaces inum j}) := by
  constructor
  · intro hxi
    obtain ⟨i, s⟩ := x
    have hxi : i = inum := hxi
    subst hxi
    have hs : s.InRange := hx.1.2.2
    cases s with
    | addr j =>
      have hj : j < 13 := hs
      by_cases h11 : j < 11
      · exact .inr (.inl (.inr (.inl ⟨j, h11, rfl⟩)))
      · by_cases hj11 : j = 11
        · rw [hj11]; exact .inr (.inl (.inl rfl))
        · have hj12 : j = 12 := by omega
          rw [hj12]; exact .inl rfl
    | ind k => exact .inr (.inl (.inr (.inr ⟨k, hs, rfl⟩)))
    | out j => exact .inr (.inr ⟨j, hs, .inl rfl⟩)
    | inn j k => exact .inr (.inr ⟨j, hs.1, .inr ⟨k, hs.2, rfl⟩⟩)
  · intro hxm
    cases hxm with
    | inl hxm => rw [hxm]; rfl
    | inr hxm =>
      cases hxm with
      | inl hxm =>
        cases hxm with
        | inl hxm => rw [hxm]; rfl
        | inr hxm =>
          cases hxm with
          | inl hxm => obtain ⟨_, _, rfl⟩ := hxm; rfl
          | inr hxm => obtain ⟨_, _, rfl⟩ := hxm; rfl
      | inr hxm =>
        obtain ⟨j, _, hxm⟩ := hxm
        cases hxm with
        | inl hxm => rw [hxm]; rfl
        | inr hxm => obtain ⟨_, _, rfl⟩ := hxm; rfl

/-- `itrunc` does not panic: it frees every block of the inode, in the listed order, leaves the
other blocks to their places, and writes the empty inode back. -/
theorem itrunc_spec (hL : sb.Layout) (hF : Forest sb v din) (hi : inum < sb.ninodes)
    (ht : (din inum).type ≠ 0) :
    ∃ v', itrunc sb v inum (din inum) =
        .ok ((din inum).emptied, iupdate sb v' inum (din inum).emptied) ∧
      Freeing sb v din (allPlaces inum) v' ∧ Frees sb v (freedBlocks v (din inum)) v' := by
  obtain ⟨d1, v1, heq1, hfree1, hfrees1, hclear1⟩ := freeDirect_spec hL hF hi ht
  obtain ⟨d2, v2, heq2, hfree2, hfrees2, hclear2⟩ := freeIndex_spec (i := ndirect)
    (C := {x | ∃ k < nindirect, x = (inum, Slot.ind k)}) (Y := (· < ndirect+1)) hL hfree1 hclear1
    hi ht (by decide) (Nat.lt_irrefl _) (by omega) (by simp [directPlaces])
    (fun hp => freeTable_spec hL hF hfree1 hp (fun _ => rfl) (fun _ hk => hk)
      (by simp [directPlaces]))
    (by
      intro h0 x hx
      obtain ⟨k, _, rfl⟩ := hx
      have hup : (Slot.ind k).up = some (.addr ndirect, k) := rfl
      exact fun hh => hh.2 (valAt_up_zero hup h0))
  obtain ⟨d3, v3, heq3, hfree3, hfrees3, hclear3⟩ := freeIndex_spec (i := ndirect+1)
    (C := {x | ∃ j < nindirect, x ∈ outerPlaces inum j}) (Y := (· < ndirect+2)) hL hfree2 hclear2
    hi ht (by decide) (Nat.lt_irrefl _) (by omega) (by simp [directPlaces, outerPlaces])
    (fun hp => freeOuter_spec hL hF hfree2 hp (by
      intro j x hx
      cases hx with
      | inl hx => subst hx; simp [directPlaces]
      | inr hx => obtain ⟨k, _, rfl⟩ := hx; simp [directPlaces]))
    (by
      intro h0 x hx
      obtain ⟨j, _, hx⟩ := hx
      have hupo : (Slot.out j).up = some (.addr (ndirect+1), j) := rfl
      have hout := valAt_up_zero (v := v) (i := inum) hupo h0
      cases hx with
      | inl hx => subst hx; exact fun hh => hh.2 hout
      | inr hx =>
        obtain ⟨k, _, rfl⟩ := hx
        have hup : (Slot.inn j k).up = some (.out j, k) := rfl
        exact fun hh => hh.2 (valAt_up_zero hup hout))
  have hd : ({ d3 with size := 0 } : Dinode) = (din inum).emptied := by
    obtain ⟨f1, f2, f3, f4⟩ := hclear3.fields
    refine Dinode.ext' f1 f2 f3 f4 rfl fun i => ?_
    have hzero : (d3.addrs i).toNat = 0 := by simpa [Dinode.addr] using hclear3.zero i i.isLt
    exact UInt32.toNat_inj.mp hzero
  refine ⟨v3, ?_, hfree3.congr fun x hx => mem_allPlaces hx,
    (hfrees1.append hfrees2).append hfrees3⟩
  unfold itrunc
  rw [heq1]
  simp only [bind, Except.bind, heq2, heq3, pure, Except.pure, hd]

/-- The forest without the tree of `inum`. -/
theorem Freeing.forest {din' : Nat → Dinode} {w : Vol} (h : Freeing sb v din (allPlaces inum) v')
    (hF : Forest sb v din) (hbit : ∀ c < sb.size, w.bit sb c = v'.bit sb c)
    (hdisk : ∀ c, sb.datastart ≤ c → w.disk c = v'.disk c) (hzero : ∀ j, (din' inum).addr j = 0)
    (hother : ∀ i < sb.ninodes, i ≠ inum → din' i = din i) : Forest sb w din' := by
  have hval : ∀ x, Place.Exists sb din x → x.1 ≠ inum → valAt w din' x = valAt v din x := by
    intro x hx hne
    have hptr : ∀ p ∈ held sb v din, p.1 = x.1 → ¬ p.2.IsLeaf → ∀ k < nindirect,
        w.ptr (valAt v din p) k = v.ptr (valAt v din p) k := by
      intro p hp _ _ k _
      have hdata := hF.isData hp
      unfold Vol.ptr
      rw [hdisk _ hdata.1, h.disk _ hdata.off]
    exact val_frame (fun j => by rw [hother x.1 hx.1 hne]) hptr hx.1 hx.2.1 x.2 hx.2.2
  have hheld : held sb w din' = held sb v din \ allPlaces inum := by
    ext x
    by_cases hne : x.1 = inum
    · constructor
      · intro hx
        refine absurd ?_ hx.2
        unfold valAt
        rw [hne]
        exact val_of_zero hzero x.2
      · intro hx; exact absurd hne hx.2
    · have hex : Place.Exists sb din' x ↔ Place.Exists sb din x := by
        unfold Place.Exists
        constructor
        · intro hx; exact ⟨hx.1, hother x.1 hx.1 hne ▸ hx.2.1, hx.2.2⟩
        · intro hx; exact ⟨hx.1, (hother x.1 hx.1 hne).symm ▸ hx.2.1, hx.2.2⟩
      constructor
      · intro hx
        have hx' := hex.mp hx.1
        exact ⟨⟨hx', hval x hx' hne ▸ hx.2⟩, hne⟩
      · intro hx
        exact ⟨hex.mpr hx.1.1, by rw [hval x hx.1.1 hne]; exact hx.1.2⟩
  unfold Forest
  rw [hheld]
  refine (h.owns.congr_val ?_).congr_bit hbit
  intro x hx
  exact (hval x hx.1.1 hx.2).symm

end Xv6Labs.Fs
