import Xv6Labs.Fs.Forest

/-! `bmap` is an update of a partial map: it attaches free, zeroed blocks at empty places on
the way to one block of the file and changes nothing else, wherever it runs out of blocks. -/
namespace Xv6Labs.Fs
open Kit Bytes

variable {sb : Superblock} {v v' v'' : Vol} {din din' : Nat → Dinode} {x y : Place}
  {b inum i : Nat} {d d' d'' : Dinode}

theorem Slot.up_ne {s p : Slot} {k : Nat} (h : s.up = some (p, k)) : s ≠ p := by
  cases s <;> cases h <;> simp

/-- A zeroed block `b` attached at the empty place `x` is the only new value. -/
theorem val_attach (hx0 : valAt v din x = 0) (hb : b ≠ 0)
    (hpar : ∀ p k, x.2.up = some (p, k) → p.val v (din x.1) ≠ 0)
    (hroot : ∀ i j, (din' i).addr j = if (i, Slot.addr j) = x then b else (din i).addr j)
    (hptr : ∀ y p k, Place.Exists sb din y → y.2.up = some (p, k) → p.val v (din y.1) ≠ 0 →
      v'.ptr (p.val v (din y.1)) k = if y = x then b else v.ptr (p.val v (din y.1)) k)
    (hzero : ∀ k, v'.ptr b k = 0) (hy : Place.Exists sb din y) :
    valAt v' din' y = if y = x then b else valAt v din y := by
  obtain ⟨i, s⟩ := y
  unfold valAt
  induction s using Slot.up_induction with
  | root j => exact hroot i j
  | step s p k hup ih =>
    have hp : Place.Exists sb din (i, p) := ⟨hy.1, hy.2.1, (hy.2.2.up hup).1⟩
    have ih := ih hp
    simp only at ih ⊢
    rw [Slot.val_up hup, Slot.val_up hup]
    by_cases hpx : (i, p) = x
    · have hsx : (i, s) ≠ x := by
        intro hsx
        rw [← hpx] at hsx
        exact Slot.up_ne hup (Prod.mk.inj hsx).2
      have hp0 : p.val v (din i) = 0 := by rw [← hpx] at hx0; exact hx0
      rw [ih, if_pos hpx, if_neg hb, hzero, if_neg hsx, if_pos hp0]
    · rw [ih, if_neg hpx]
      by_cases hp0 : p.val v (din i) = 0
      · have hsx : (i, s) ≠ x := by
          intro hsx
          rw [← hsx] at hpar
          exact hpar p k hup hp0
        rw [if_pos hp0, if_neg hsx, if_pos hp0]
      · rw [if_neg hp0, if_neg hp0]
        exact hptr (i, s) p k hy hup hp0

/-- The forest with one more block. -/
theorem Forest.attach (hF : Forest sb v din) (hL : sb.Layout) (hx : Place.Exists sb din x)
    (hx0 : valAt v din x = 0) (hb : b < sb.size) (hfree : ¬ v.bit sb b)
    (htype : ∀ i, (din' i).type = (din i).type)
    (hbit : ∀ c < sb.size, v'.bit sb c = (v.take sb b).bit sb c)
    (hval : ∀ y, Place.Exists sb din y →
      valAt v' din' y = if y = x then b else valAt v din y) :
    Forest sb v' din' := by
  have hdata := Owns.free_isData hF hb hfree
  have hb0 := hdata.ne_zero hL
  have hex : ∀ y, Place.Exists sb din' y ↔ Place.Exists sb din y := by
    intro y
    unfold Place.Exists
    rw [htype]
  have hheld : held sb v' din' = insert x (held sb v din) := by
    ext y
    constructor
    · intro hy
      have hye := (hex y).mp hy.1
      by_cases hyx : y = x
      · exact .inl hyx
      · refine .inr ⟨hye, ?_⟩
        have := hy.2
        rw [hval y hye, if_neg hyx] at this
        exact this
    · intro hy
      cases hy with
      | inl hyx =>
        rw [hyx]
        exact ⟨(hex x).mpr hx, by rw [hval x hx, if_pos rfl]; exact hb0⟩
      | inr hy =>
        have hyx : y ≠ x := fun hyx => hy.2 (hyx ▸ hx0)
        exact ⟨(hex y).mpr hy.1, by rw [hval y hy.1, if_neg hyx]; exact hy.2⟩
  have htake : Owns sb (v.take sb b) (valAt v' din') (insert x (held sb v din)) := by
    refine Owns.take hF hL hb hfree (by rw [hval x hx, if_pos rfl]) ?_
    intro y hy
    have hyx : y ≠ x := fun hyx => hy.2 (hyx ▸ hx0)
    rw [hval y hy.1, if_neg hyx]
  unfold Forest
  rw [hheld]
  exact htake.congr_bit hbit

/-! What the steps of `bmap` on inode `inum` keep, `d` being its copy in memory. -/

/-- From the copy `d` on the volume `v` to `d'` on `v'`, blocks have only been added, at places
of `inum` in `X`, and new data blocks are zero. -/
structure Grows (sb : Superblock) (din : Nat → Dinode) (inum : Nat) (X : Set Slot)
    (v : Vol) (d : Dinode) (v' : Vol) (d' : Dinode) : Prop where
  forest : Forest sb v' (Function.update din inum d')
  fields : d'.type = d.type ∧ d'.major = d.major ∧ d'.minor = d.minor ∧ d'.nlink = d.nlink ∧
    d'.size = d.size
  low : ∀ c < sb.bmapstart, v'.disk c = v.disk c
  same : ∀ y, Place.Exists sb (Function.update din inum d) y → (y.1 ≠ inum ∨ y.2 ∉ X) →
    valAt v' (Function.update din inum d') y = valAt v (Function.update din inum d) y
  keep : ∀ y, Place.Exists sb (Function.update din inum d) y →
    valAt v (Function.update din inum d) y ≠ 0 →
    valAt v' (Function.update din inum d') y = valAt v (Function.update din inum d) y
  leaf : ∀ y, Place.Exists sb (Function.update din inum d) y → y.2.IsLeaf →
    valAt v (Function.update din inum d) y ≠ 0 →
    v'.disk (valAt v (Function.update din inum d) y) =
      v.disk (valAt v (Function.update din inum d) y)
  zero : ∀ y, Place.Exists sb (Function.update din inum d) y → y.2.IsLeaf →
    valAt v (Function.update din inum d) y = 0 →
    valAt v' (Function.update din inum d') y ≠ 0 →
    v'.disk (valAt v' (Function.update din inum d') y) = fun _ => 0

namespace Grows
variable {X Y : Set Slot}

theorem refl (hF : Forest sb v (Function.update din inum d)) :
    Grows sb din inum X v d v d where
  forest := hF
  fields := ⟨rfl, rfl, rfl, rfl, rfl⟩
  low := fun _ _ => rfl
  same := fun _ _ _ => rfl
  keep := fun _ _ _ => rfl
  leaf := fun _ _ _ _ => rfl
  zero := fun _ _ _ h0 h1 => absurd h0 h1

theorem type_eq (h : Grows sb din inum X v d v' d') (i : Nat) :
    (Function.update din inum d' i).type = (Function.update din inum d i).type := by
  by_cases hi : i = inum
  · subst hi; simpa using h.fields.1
  · simp [hi]

theorem exists_iff (h : Grows sb din inum X v d v' d') :
    Place.Exists sb (Function.update din inum d') y ↔
      Place.Exists sb (Function.update din inum d) y := by
  unfold Place.Exists
  rw [h.type_eq]

theorem mono (h : Grows sb din inum X v d v' d') (hXY : X ⊆ Y) :
    Grows sb din inum Y v d v' d' :=
  { h with same := fun y hy hor => h.same y hy (hor.imp id fun hn hX => hn (hXY hX)) }

theorem trans (h : Grows sb din inum X v d v' d') (h' : Grows sb din inum X v' d' v'' d'') :
    Grows sb din inum X v d v'' d'' := by
  obtain ⟨f1, f2, f3, f4, f5⟩ := h.fields
  obtain ⟨g1, g2, g3, g4, g5⟩ := h'.fields
  refine ⟨h'.forest, ⟨g1.trans f1, g2.trans f2, g3.trans f3, g4.trans f4, g5.trans f5⟩,
    fun c hc => (h'.low c hc).trans (h.low c hc), ?_, ?_, ?_, ?_⟩
  · intro y hy hX
    exact (h'.same y (h.exists_iff.mpr hy) hX).trans (h.same y hy hX)
  · intro y hy h0
    have hk := h.keep y hy h0
    exact (h'.keep y (h.exists_iff.mpr hy) (hk ▸ h0)).trans hk
  · intro y hy hleaf h0
    have hk := h.keep y hy h0
    have hl := h'.leaf y (h.exists_iff.mpr hy) hleaf (hk ▸ h0)
    rw [hk] at hl
    exact hl.trans (h.leaf y hy hleaf h0)
  · intro y hy hleaf h0 h2
    have hy' := h.exists_iff.mpr hy
    by_cases h1 : valAt v' (Function.update din inum d') y = 0
    · exact h'.zero y hy' hleaf h1 h2
    · rw [h'.keep y hy' h1, h'.leaf y hy' hleaf h1]
      exact h.zero y hy hleaf h0 h1

end Grows

/-- Attaching the block `b` at the place `s` of `inum` is a growth. -/
theorem Grows.of_attach {s : Slot} (hL : sb.Layout)
    (hF : Forest sb v (Function.update din inum d))
    (hx : Place.Exists sb (Function.update din inum d) (inum, s))
    (hx0 : s.val v d = 0) (hb : b < sb.size) (hfree : ¬ v.bit sb b)
    (hfields : d'.type = d.type ∧ d'.major = d.major ∧ d'.minor = d.minor ∧ d'.nlink = d.nlink ∧
      d'.size = d.size)
    (hbit : ∀ c < sb.size, v'.bit sb c = (v.take sb b).bit sb c)
    (hlow : ∀ c < sb.bmapstart, v'.disk c = v.disk c)
    (hzero : v'.disk b = fun _ => 0)
    (hleaf : ∀ y ∈ held sb v (Function.update din inum d), y.2.IsLeaf →
      v'.disk (valAt v (Function.update din inum d) y) =
        v.disk (valAt v (Function.update din inum d) y))
    (hval : ∀ y, Place.Exists sb (Function.update din inum d) y →
      valAt v' (Function.update din inum d') y =
        if y = (inum, s) then b else valAt v (Function.update din inum d) y) :
    Grows sb din inum {s} v d v' d' ∧ s.val v' d' = b := by
  have htype : ∀ i, (Function.update din inum d' i).type = (Function.update din inum d i).type := by
    intro i
    by_cases hi : i = inum
    · subst hi; simpa using hfields.1
    · simp [hi]
  have hval_s : valAt v (Function.update din inum d) (inum, s) = 0 := by simpa [valAt] using hx0
  have hnew : s.val v' d' = b := by
    have := hval (inum, s) hx
    rw [if_pos rfl] at this
    simpa [valAt] using this
  refine ⟨⟨hF.attach hL hx hval_s hb hfree htype hbit hval, hfields, hlow, ?_, ?_,
    fun y hy hl h0 => hleaf y ⟨hy, h0⟩ hl, ?_⟩, hnew⟩
  · intro y hy hX
    have hne : y ≠ (inum, s) := by
      intro heq
      rw [heq] at hX
      simp at hX
    rw [hval y hy, if_neg hne]
  · intro y hy h0
    have hne : y ≠ (inum, s) := fun heq => h0 (heq ▸ hval_s)
    rw [hval y hy, if_neg hne]
  · intro y hy _ h0 h1
    by_cases hne : y = (inum, s)
    · rw [hval y hy, if_pos hne]
      exact hzero
    · rw [hval y hy, if_neg hne] at h1
      exact absurd h0 h1

theorem ptr_take (hL : sb.Layout) (hb : b < sb.size) {a : Nat} (ha : sb.IsData a) (hne : a ≠ b)
    (k : Nat) : (v.take sb b).ptr a k = v.ptr a k := by
  unfold Vol.ptr
  rw [take_disk hne ha.off hL hb]

theorem ptr_take_self (k : Nat) : (v.take sb b).ptr b k = 0 := by
  unfold Vol.ptr
  rw [take_disk_self]
  rfl

theorem size_lt (hL : sb.Layout) (hb : b < sb.size) : b < 2^32 := by
  have := hL.size
  simp only [bpb] at this
  omega

theorem bmapstart_off {c : Nat} (hc : c < sb.bmapstart) : sb.OffBitmap c := .inl hc

theorem low_ne_data (hL : sb.Layout) {c : Nat} (hc : c < sb.bmapstart) (hb : sb.IsData b) :
    c ≠ b := by
  have h1 := hb.1
  have h2 := hL.bmapstart_lt
  omega

/-- A free block that goes into `addrs`. -/
theorem valAt_take_setAddr (hL : sb.Layout) (hF : Forest sb v (Function.update din inum d))
    (hb : b < sb.size) (hfree : ¬ v.bit sb b) (hr : i < ndirect+2) (h0 : d.addr i = 0)
    (hy : Place.Exists sb (Function.update din inum d) y) :
    valAt (v.take sb b) (Function.update din inum (d.setAddr i b)) y =
      if y = (inum, Slot.addr i) then b else valAt v (Function.update din inum d) y := by
  have hb0 := (Owns.free_isData hF hb hfree).ne_zero hL
  refine val_attach (by simpa [valAt, Slot.val] using h0) hb0 (by simp [Slot.up]) ?_ ?_
    ptr_take_self hy
  · intro i' j
    by_cases hi' : i' = inum
    · subst hi'
      simp [Dinode.addr_setAddr (size_lt hL hb) hr]
    · simp [hi']
  · intro z p k hz hup hp
    have hheld := held_up hz hup hp
    have hne : z ≠ (inum, Slot.addr i) := by
      intro heq
      rw [heq] at hup
      cases hup
    rw [if_neg hne]
    exact ptr_take hL hb (hF.isData hheld) (hF.val_ne_free hheld hfree) k

theorem allocAddr_spec (hL : sb.Layout) (hF : Forest sb v (Function.update din inum d))
    (hi : inum < sb.ninodes) (ht : d.type ≠ 0) {i : Nat} (hr : i < ndirect+2) :
    ∃ addr d' v', allocAddr sb v d i = (addr, d', v') ∧
      Grows sb din inum {Slot.addr i} v d v' d' ∧ addr = d'.addr i ∧
      (addr = 0 → v'.Full sb) ∧ (d.addr i ≠ 0 → d' = d ∧ v' = v) := by
  unfold allocAddr
  by_cases h0 : d.addr i = 0
  · rw [if_pos h0]
    obtain ⟨heq, hfull⟩ | ⟨b, hb, hfree, -, heq⟩ := balloc_spec sb v
    · rw [heq]
      exact ⟨0, d, v, rfl, .refl hF, h0.symm, fun _ => hfull, fun h => absurd h0 h⟩
    · have hdata := Owns.free_isData hF hb hfree
      have hb0 := hdata.ne_zero hL
      have hx : Place.Exists sb (Function.update din inum d) (inum, Slot.addr i) :=
        exists_update hi ht hr
      rw [heq]
      obtain ⟨n, rfl⟩ := Nat.exists_eq_succ_of_ne_zero hb0
      refine ⟨n.succ, d.setAddr i n.succ, v.take sb n.succ, rfl, ?_⟩
      have hval : ∀ y, Place.Exists sb (Function.update din inum d) y →
          valAt (v.take sb n.succ) (Function.update din inum (d.setAddr i n.succ)) y =
            if y = (inum, Slot.addr i) then n.succ
            else valAt v (Function.update din inum d) y :=
        fun y hy => valAt_take_setAddr hL hF hb hfree hr h0 hy
      have hgrow : Grows sb din inum {Slot.addr i} v d (v.take sb n.succ) (d.setAddr i n.succ) ∧
          (d.setAddr i n.succ).addr i = n.succ := Grows.of_attach hL hF hx h0 hb hfree
        ⟨rfl, rfl, rfl, rfl, rfl⟩ (fun _ _ => rfl)
        (fun c hc => take_disk (low_ne_data hL hc hdata) (bmapstart_off hc) hL hb)
        take_disk_self
        (fun y hy _ => take_disk (hF.val_ne_free hy hfree) (hF.isData hy).off hL hb) hval
      exact ⟨hgrow.1, hgrow.2.symm, fun h => absurd h hb0, fun h => absurd h0 h⟩
  · rw [if_neg h0]
    exact ⟨d.addr i, d, v, rfl, .refl hF, rfl, fun h => absurd h h0, fun _ => ⟨rfl, rfl⟩⟩

/-- A free block that goes into an entry of the index block at `p`. -/
theorem valAt_take_setPtr (hL : sb.Layout) (hF : Forest sb v (Function.update din inum d))
    (hb : b < sb.size) (hfree : ¬ v.bit sb b) {s p : Slot} {k : Nat}
    (hup : s.up = some (p, k)) (hp : (inum, p) ∈ held sb v (Function.update din inum d))
    (h0 : s.val v d = 0) (hy : Place.Exists sb (Function.update din inum d) y) :
    valAt ((v.take sb b).setPtr (p.val v d) k b) (Function.update din inum d) y =
      if y = (inum, s) then b else valAt v (Function.update din inum d) y := by
  have hb0 := (Owns.free_isData hF hb hfree).ne_zero hL
  have hblt := size_lt hL hb
  have hpval : valAt v (Function.update din inum d) (inum, p) = p.val v d := valAt_update
  have hpb : p.val v d ≠ b := hpval ▸ hF.val_ne_free hp hfree
  have hptr : ∀ a k', sb.IsData a → a ≠ b →
      ((v.take sb b).setPtr (p.val v d) k b).ptr a k' =
        if a = p.val v d ∧ k' = k then b else v.ptr a k' := by
    intro a k' ha hab
    rw [ptr_setPtr hblt, ptr_take hL hb ha hab]
  refine val_attach (by simpa [valAt] using h0) hb0 ?_ ?_ ?_ ?_ hy
  · intro q k' hq
    rw [hup] at hq
    cases hq
    have hne := hp.2
    rw [hpval] at hne
    simpa using hne
  · intro i' j
    have hne : (i', Slot.addr j) ≠ (inum, s) := by
      intro heq
      rw [← (Prod.mk.inj heq).2] at hup
      cases hup
    rw [if_neg hne]
  · intro z q k' hz hzup hq
    have hqheld := held_up hz hzup hq
    rw [hptr (q.val v (Function.update din inum d z.1)) k' (hF.isData hqheld)
      (hF.val_ne_free hqheld hfree)]
    by_cases hzs : z = (inum, s)
    · subst hzs
      rw [hup] at hzup
      cases hzup
      simp
    · rw [if_neg hzs, if_neg]
      intro hc
      -- the same entry of the same index block is the same place
      have hplace := hF.inj hqheld hp (by rw [hpval]; exact hc.1)
      obtain ⟨hz1, rfl⟩ := Prod.mk.inj hplace
      rw [hc.2] at hzup
      exact hzs (Prod.ext hz1 (Slot.up_inj hzup hup))
  · intro k'
    rw [ptr_setPtr hblt, if_neg (fun hc => hpb hc.1.symm), ptr_take_self]

theorem allocPtr_spec (hL : sb.Layout) (hF : Forest sb v (Function.update din inum d))
    (hi : inum < sb.ninodes) (ht : d.type ≠ 0) {s p : Slot} {k : Nat} (hr : s.InRange)
    (hup : s.up = some (p, k)) (hp : p.val v d ≠ 0) :
    ∃ addr v', allocPtr sb v (p.val v d) k = (addr, v') ∧
      Grows sb din inum {s} v d v' d ∧ addr = s.val v' d ∧
      (addr = 0 → v'.Full sb) ∧ (s.val v d ≠ 0 → v' = v) := by
  have hsval : s.val v d = v.ptr (p.val v d) k := by rw [Slot.val_up hup, if_neg hp]
  have hx : Place.Exists sb (Function.update din inum d) (inum, s) := exists_update hi ht hr
  have hpheld : (inum, p) ∈ held sb v (Function.update din inum d) :=
    held_update hi ht (hr.up hup).1 hp
  have hpval : valAt v (Function.update din inum d) (inum, p) = p.val v d := valAt_update
  unfold allocPtr
  rw [← hsval]
  by_cases h0 : s.val v d = 0
  · rw [if_pos h0]
    obtain ⟨heq, hfull⟩ | ⟨b, hb, hfree, -, heq⟩ := balloc_spec sb v
    · rw [heq]
      exact ⟨0, v, rfl, .refl hF, h0.symm, fun _ => hfull, fun h => absurd h0 h⟩
    · have hdata := Owns.free_isData hF hb hfree
      have hb0 := hdata.ne_zero hL
      have hpdata : sb.IsData (p.val v d) := hpval ▸ hF.isData hpheld
      have hpb : p.val v d ≠ b := hpval ▸ hF.val_ne_free hpheld hfree
      rw [heq]
      obtain ⟨n, rfl⟩ := Nat.exists_eq_succ_of_ne_zero hb0
      refine ⟨n.succ, (v.take sb n.succ).setPtr (p.val v d) k n.succ, rfl, ?_⟩
      have hdisk : ∀ c, sb.OffBitmap c → c ≠ n.succ → c ≠ p.val v d →
          ((v.take sb n.succ).setPtr (p.val v d) k n.succ).disk c = v.disk c := by
        intro c hc hcb hcp
        unfold Vol.setPtr
        rw [disk_write_ne hcp, take_disk hcb hc hL hb]
      have hval : ∀ y, Place.Exists sb (Function.update din inum d) y →
          valAt ((v.take sb n.succ).setPtr (p.val v d) k n.succ) (Function.update din inum d) y =
            if y = (inum, s) then n.succ else valAt v (Function.update din inum d) y :=
        fun y hy => valAt_take_setPtr hL hF hb hfree hup hpheld h0 hy
      have hgrow := Grows.of_attach hL hF hx h0 hb hfree ⟨rfl, rfl, rfl, rfl, rfl⟩
        (fun c hc => bit_write_off hL hc hpdata.off)
        (fun c hc => hdisk c (bmapstart_off hc) (low_ne_data hL hc hdata)
          (low_ne_data hL hc hpdata))
        (by rw [disk_write_ne (Ne.symm hpb), take_disk_self])
        (fun y hy hl => hdisk _ (hF.isData hy).off (hF.val_ne_free hy hfree) ?_) hval
      · exact ⟨hgrow.1, hgrow.2.symm, fun h => absurd h hb0, fun h => absurd h0 h⟩
      · intro heq
        have := hF.inj hy hpheld (by rw [hpval]; exact heq)
        rw [this] at hl
        exact Slot.not_leaf_of_up hup hl
  · rw [if_neg h0]
    exact ⟨s.val v d, v, rfl, .refl hF, rfl, fun h => absurd h h0, fun _ => rfl⟩

/-! The block map. -/

/-- The place of block `bn` of a file. -/
def leafSlot (bn : Nat) : Slot :=
  if bn < ndirect then .addr bn
  else if bn - ndirect < nindirect then .ind (bn - ndirect)
  else .inn ((bn - ndirect - nindirect)/nindirect) ((bn - ndirect - nindirect)%nindirect)

/-- The block of `d` at index `bn`, without allocating; 0 if there is none. -/
def lookup (v : Vol) (d : Dinode) (bn : Nat) : Nat := (leafSlot bn).val v d

theorem leafSlot_inRange {bn : Nat} (h : bn < maxfile) : (leafSlot bn).InRange := by
  unfold leafSlot
  simp only [ndirect, nindirect, maxfile] at *
  split
  · next h1 => simp only [Slot.InRange, ndirect]; omega
  · split
    · next h1 h2 => simpa only [Slot.InRange] using h2
    · next h1 h2 => simp only [Slot.InRange, nindirect]; omega

theorem leafSlot_isLeaf (bn : Nat) : (leafSlot bn).IsLeaf := by
  unfold leafSlot
  split
  · next h => exact h
  · split <;> trivial

theorem leafSlot_inj {bn bn' : Nat} (h : leafSlot bn = leafSlot bn') : bn = bn' := by
  unfold leafSlot at h
  simp only [ndirect, nindirect] at h
  split at h <;> split at h <;> (try split at h) <;> (try split at h) <;>
    simp only [Slot.addr.injEq, Slot.ind.injEq, Slot.inn.injEq, reduceCtorEq] at h <;> omega

/-- The places `bmap` may fill on its way to block `bn`. -/
def onWay (bn : Nat) : Set Slot := {s | s = leafSlot bn ∨ ¬ s.IsLeaf}

theorem onWay_leaf {bn : Nat} : {leafSlot bn} ⊆ onWay bn := fun _ hs => .inl hs

theorem onWay_index {bn : Nat} {s : Slot} (hs : ¬ s.IsLeaf) : {s} ⊆ onWay bn := by
  intro t ht
  rw [Set.mem_singleton_iff.mp ht]
  exact .inr hs

/-- A `bmap` of `bn` has returned the block now mapped there, or 0 when the disk is full; a block
that was mapped is found again. -/
def Maps (sb : Superblock) (din : Nat → Dinode) (inum bn : Nat) (v : Vol) (d : Dinode)
    (r : Except String (Nat × Dinode × Vol)) : Prop :=
  ∃ addr d' v', r = .ok (addr, d', v') ∧ Grows sb din inum (onWay bn) v d v' d' ∧
    addr = lookup v' d' bn ∧ (addr = 0 → v'.Full sb) ∧ (lookup v d bn ≠ 0 → d' = d ∧ v' = v)

theorem bmap_direct (hL : sb.Layout) (hF : Forest sb v (Function.update din inum d))
    (hi : inum < sb.ninodes) (ht : d.type ≠ 0) {bn : Nat} (h1 : bn < ndirect) :
    Maps sb din inum bn v d (bmap sb v d bn) := by
  unfold bmap
  have hslot : leafSlot bn = .addr bn := by simp [leafSlot, h1]
  obtain ⟨addr, d', v', heq, hg, haddr, hfull, hid⟩ :=
    allocAddr_spec hL hF hi ht (show bn < ndirect+2 by omega)
  refine ⟨addr, d', v', by rw [if_pos h1, heq], hg.mono (hslot ▸ onWay_leaf), ?_, hfull, ?_⟩
  · rw [haddr, lookup, hslot]; rfl
  · intro hne
    rw [lookup, hslot] at hne
    exact hid hne

theorem bmap_indirect (hL : sb.Layout) (hF : Forest sb v (Function.update din inum d))
    (hi : inum < sb.ninodes) (ht : d.type ≠ 0) {bn : Nat} (h1 : ¬ bn < ndirect)
    (h2 : bn - ndirect < nindirect) : Maps sb din inum bn v d (bmap sb v d bn) := by
  have hrange : (leafSlot bn).InRange := leafSlot_inRange (by
    simp only [ndirect, nindirect, maxfile] at *
    omega)
  unfold bmap
  rw [if_neg h1, if_pos h2]
  have hslot : leafSlot bn = .ind (bn - ndirect) := by simp [leafSlot, h1, h2]
  have hup : (leafSlot bn).up = some (.addr ndirect, bn - ndirect) := by rw [hslot]; rfl
  obtain ⟨a, d1, v1, heq1, hg1, ha1, hfull1, hid1⟩ :=
    allocAddr_spec hL hF hi ht (show ndirect < ndirect+2 by decide)
  have hg1' : Grows sb din inum (onWay bn) v d v1 d1 :=
    hg1.mono (onWay_index (by simp [Slot.IsLeaf]))
  by_cases ha : a = 0
  · subst ha
    refine ⟨0, d1, v1, by simp only [heq1], hg1', ?_, hfull1, ?_⟩
    · rw [lookup, Slot.val_up hup]; exact (if_pos ha1.symm).symm
    · intro hne
      have hp : d.addr ndirect = 0 := by
        by_contra hp
        obtain ⟨rfl, _⟩ := hid1 hp
        exact hp ha1.symm
      rw [lookup, Slot.val_up hup] at hne
      exact absurd (if_pos hp) hne
  · have ht1 : d1.type ≠ 0 := by rw [hg1.fields.1]; exact ht
    have hp1 : (Slot.addr ndirect).val v1 d1 ≠ 0 := by
      simp only [Slot.val]; rw [← ha1]; exact ha
    obtain ⟨addr, v2, heq2, hg2, haddr, hfull2, hid2⟩ :=
      allocPtr_spec hL hg1.forest hi ht1 hrange hup hp1
    have heq2' : allocPtr sb v1 a (bn - ndirect) = (addr, v2) := by rw [ha1]; exact heq2
    refine ⟨addr, d1, v2, ?_, hg1'.trans (hg2.mono onWay_leaf), haddr, hfull2, ?_⟩
    · rw [heq1]
      obtain ⟨m, rfl⟩ := Nat.exists_eq_succ_of_ne_zero ha
      simp only [heq2']
    · intro hne
      rw [lookup, Slot.val_up hup] at hne
      have hp : d.addr ndirect ≠ 0 := fun hp => hne (if_pos hp)
      obtain ⟨rfl, rfl⟩ := hid1 hp
      refine ⟨rfl, hid2 ?_⟩
      rw [Slot.val_up hup]
      exact hne

theorem bmap_doublyIndirect (hL : sb.Layout) (hF : Forest sb v (Function.update din inum d))
    (hi : inum < sb.ninodes) (ht : d.type ≠ 0) {bn : Nat} (hbn : bn < maxfile)
    (h1 : ¬ bn < ndirect) (h2 : ¬ bn - ndirect < nindirect) :
    Maps sb din inum bn v d (bmap sb v d bn) := by
  have hrange := leafSlot_inRange hbn
  unfold bmap
  rw [if_neg h1, if_neg h2]
  have h3 : bn - ndirect - nindirect < ndoublyIndirect := by
    simp only [ndirect, nindirect, ndoublyIndirect, maxfile] at *
    omega
  rw [if_pos h3]
  generalize hj : (bn - ndirect - nindirect)/nindirect = j
  generalize hk : (bn - ndirect - nindirect)%nindirect = k
  have hslot : leafSlot bn = .inn j k := by simp [leafSlot, h1, h2, ← hj, ← hk]
  have hup : (leafSlot bn).up = some (.out j, k) := by rw [hslot]; rfl
  have hupo : (Slot.out j).up = some (.addr (ndirect+1), j) := rfl
  have hrangeo : (Slot.out j).InRange := (hrange.up hup).1
  obtain ⟨a, d1, v1, heq1, hg1, ha1, hfull1, hid1⟩ :=
    allocAddr_spec hL hF hi ht (show ndirect+1 < ndirect+2 by decide)
  have hg1' : Grows sb din inum (onWay bn) v d v1 d1 :=
    hg1.mono (onWay_index (by simp [Slot.IsLeaf]))
  have hroot : lookup v d bn ≠ 0 → (Slot.out j).val v d ≠ 0 ∧ d.addr (ndirect+1) ≠ 0 := by
    intro hne
    rw [lookup, Slot.val_up hup] at hne
    have ho : (Slot.out j).val v d ≠ 0 := fun ho => hne (if_pos ho)
    refine ⟨ho, fun hp => ho ?_⟩
    rw [Slot.val_up hupo]
    exact if_pos hp
  by_cases ha : a = 0
  · subst ha
    refine ⟨0, d1, v1, by simp only [heq1], hg1', ?_, hfull1, ?_⟩
    · have ho : (Slot.out j).val v1 d1 = 0 := by
        rw [Slot.val_up hupo]; exact if_pos ha1.symm
      rw [lookup, Slot.val_up hup, if_pos ho]
    · intro hne
      obtain ⟨rfl, _⟩ := hid1 (hroot hne).2
      exact absurd ha1.symm (hroot hne).2
  · have ht1 : d1.type ≠ 0 := by rw [hg1.fields.1]; exact ht
    have hp1 : (Slot.addr (ndirect+1)).val v1 d1 ≠ 0 := by
      simp only [Slot.val]; rw [← ha1]; exact ha
    obtain ⟨o, v2, heq2, hg2, ho2, hfull2, hid2⟩ :=
      allocPtr_spec hL hg1.forest hi ht1 hrangeo hupo hp1
    have heq2' : allocPtr sb v1 a j = (o, v2) := by rw [ha1]; exact heq2
    have hg2' : Grows sb din inum (onWay bn) v d v2 d1 :=
      hg1'.trans (hg2.mono (onWay_index (by simp [Slot.IsLeaf])))
    obtain ⟨m, rfl⟩ := Nat.exists_eq_succ_of_ne_zero ha
    by_cases ho : o = 0
    · subst ho
      refine ⟨0, d1, v2, by rw [heq1]; simp only [heq2'], hg2', ?_, hfull2, ?_⟩
      · rw [lookup, Slot.val_up hup, if_pos ho2.symm]
      · intro hne
        obtain ⟨rfl, rfl⟩ := hid1 (hroot hne).2
        have hv2 := hid2 (hroot hne).1
        subst hv2
        exact absurd ho2.symm (hroot hne).1
    · have hp2 : (Slot.out j).val v2 d1 ≠ 0 := ho2 ▸ ho
      obtain ⟨addr, v3, heq3, hg3, haddr, hfull3, hid3⟩ :=
        allocPtr_spec hL hg2'.forest hi ht1 hrange hup hp2
      have heq3' : allocPtr sb v2 o k = (addr, v3) := by rw [ho2]; exact heq3
      refine ⟨addr, d1, v3, ?_, hg2'.trans (hg3.mono onWay_leaf), haddr, hfull3, ?_⟩
      · rw [heq1]
        obtain ⟨m', rfl⟩ := Nat.exists_eq_succ_of_ne_zero ho
        simp only [heq2', heq3']
      · intro hne
        obtain ⟨rfl, rfl⟩ := hid1 (hroot hne).2
        have hv2 := hid2 (hroot hne).1
        subst hv2
        exact ⟨rfl, hid3 hne⟩

/-- `bmap` below `MAXFILE` returns the block now mapped at `bn`, or 0 when the disk is full. -/
theorem bmap_spec (hL : sb.Layout) (hF : Forest sb v (Function.update din inum d))
    (hi : inum < sb.ninodes) (ht : d.type ≠ 0) {bn : Nat} (hbn : bn < maxfile) :
    ∃ addr d' v', bmap sb v d bn = .ok (addr, d', v') ∧
      Grows sb din inum (onWay bn) v d v' d' ∧ addr = lookup v' d' bn ∧
      (addr = 0 → v'.Full sb) ∧ (lookup v d bn ≠ 0 → d' = d ∧ v' = v) := by
  by_cases h1 : bn < ndirect
  · exact bmap_direct hL hF hi ht h1
  · by_cases h2 : bn - ndirect < nindirect
    · exact bmap_indirect hL hF hi ht h1 h2
    · exact bmap_doublyIndirect hL hF hi ht hbn h1 h2

end Xv6Labs.Fs
