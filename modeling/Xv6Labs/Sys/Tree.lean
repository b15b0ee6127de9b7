import Mathlib.Order.Interval.Finset.Nat
import Xv6Labs.Kit.NameTree
import Xv6Labs.Sys.Names

/-! The inodes as a tree of names: when the directories are in order, and what a new entry, a
removed one and a freed inode do to them. -/
namespace Xv6Labs.Sys
open Kit Fs

def ptr (i : Nat) : Option Nat := if i = 0 then none else some i

/-- The tree of the inodes; the entries are those after `.` and `..`. -/
def tree (nd : Nat → Node) : NameTree Nat Nat where
  kind i := if (nd i).type = 0 then .free else if (nd i).type = tDir then .dir else .leaf
  links i := (nd i).nlink.toUInt16.toNat
  entry d k := if (nd d).type = tDir then ptr (slot (nd d).data (k+2)).inum else none
  up d := (slot (nd d).data 1).inum

/-- A directory starts with `.` and `..`. -/
structure DirOk (data : List UInt8) (d : Nat) : Prop where
  aligned : 16 ∣ data.length
  two : 32 ≤ data.length
  dotInum : (slot data 0).inum = d
  dotName : namecmp dot (slot data 0).name = 0
  dotdotInum : (slot data 1).inum ≠ 0
  dotdotName : namecmp dotdot (slot data 1).name = 0

/-- The inodes are in order, where `ref` counts the references. -/
structure Shape (ninodes : Nat) (ref : Nat → Nat) (nd : Nat → Node) : Prop where
  count : ninodes ≤ 65536
  range : ∀ i, (nd i).type ≠ 0 → 0 < i ∧ i < ninodes
  tree : (tree nd).Sound rootino
  dirs : ∀ d, (nd d).type = tDir → DirOk (nd d).data d
  held : ∀ i, 0 < ref i → (nd i).type ≠ 0

section
variable {nd nd' : Nat → Node} {d i k : Nat} {data bs : List UInt8} {N : Nat} {ref : Nat → Nat}

theorem ptr_eq_some : ptr i = some k ↔ i = k ∧ k ≠ 0 := by
  unfold ptr
  split
  · rename_i h
    simp only [reduceCtorEq, false_iff]
    omega
  · rename_i h
    rw [Option.some.injEq]
    constructor
    · intro he
      exact ⟨he, he ▸ h⟩
    · exact fun he => he.1

theorem kind_free : (tree nd).kind i = .free ↔ (nd i).type = 0 := by
  unfold tree
  dsimp only
  split
  · rename_i h
    simp [h]
  · rename_i h
    split
    · simp [h]
    · simp [h]

theorem kind_dir : (tree nd).kind i = .dir ↔ (nd i).type = tDir := by
  unfold tree
  dsimp only
  split
  · rename_i h
    simp only [reduceCtorEq, h, false_iff]
    decide
  · split
    · simp [*]
    · simp [*]

theorem kind_leaf : (tree nd).kind i = .leaf ↔ (nd i).type ≠ 0 ∧ (nd i).type ≠ tDir := by
  rw [← not_iff_not]
  cases h : (tree nd).kind i with
  | free => simp [kind_free.mp h]
  | dir => simp [kind_dir.mp h]
  | leaf =>
    have h0 : (nd i).type ≠ 0 := by
      intro h'
      rw [kind_free.mpr h'] at h
      cases h
    have h1 : (nd i).type ≠ tDir := by
      intro h'
      rw [kind_dir.mpr h'] at h
      cases h
    simp [h0, h1]

theorem kind_congr (h : (nd' i).type = (nd i).type) : (tree nd').kind i = (tree nd).kind i := by
  unfold tree
  simp only [h]

theorem entry_congr (ht : (nd' d).type = (nd d).type)
    (hd : (nd d).type = tDir → (nd' d).data = (nd d).data) :
    (tree nd').entry d k = (tree nd).entry d k := by
  unfold tree
  simp only [ht]
  split
  · rename_i h
    rw [hd h]
  · rfl

theorem entry_eq_some {c : Nat} : (tree nd).entry d k = some c ↔
    (nd d).type = tDir ∧ (slot (nd d).data (k+2)).inum = c ∧ c ≠ 0 := by
  unfold tree
  dsimp only
  split
  · rename_i h
    rw [ptr_eq_some]
    simp [h]
  · rename_i h
    simp [h]

theorem toNat_add_one {x : Int16} (h : x ≠ -1) :
    (x+1).toUInt16.toNat = x.toUInt16.toNat + 1 := by
  have hadd : (x+1).toUInt16 = x.toUInt16 + 1 := rfl
  have hne : x.toUInt16.toNat ≠ 65535 := by
    intro he
    have hu : x.toUInt16 = (-1 : Int16).toUInt16 := UInt16.toNat_inj.mp he
    apply h
    rw [← Int16.toInt16_toUInt16 x, hu]
    rfl
  have hlt := x.toUInt16.toNat_lt
  have hone : (1 : UInt16).toNat = 1 := rfl
  rw [hadd, UInt16.toNat_add]
  omega

theorem toNat_eq_zero {x : Int16} : x.toUInt16.toNat = 0 ↔ x = 0 := by
  constructor
  · intro h
    have hu : x.toUInt16 = (0 : Int16).toUInt16 := UInt16.toNat_inj.mp h
    rw [← Int16.toInt16_toUInt16 x, hu]
    rfl
  · intro h
    rw [h]
    rfl

theorem toNat_sub_one {x : Int16} (h : x ≠ 0) :
    (x-1).toUInt16.toNat = x.toUInt16.toNat - 1 := by
  have hsub : (x-1).toUInt16 = x.toUInt16 - 1 := rfl
  have hne : x.toUInt16.toNat ≠ 0 := fun he => h (toNat_eq_zero.mp he)
  have hlt := x.toUInt16.toNat_lt
  have hone : (1 : UInt16).toNat = 1 := rfl
  rw [hsub, UInt16.toNat_sub]
  omega

/-- A new value for entry `k` of the directory `d`. -/
theorem setEntry_tree (hd : (nd d).type = tDir) (hk : 2 ≤ k) (hle : 16*k ≤ (nd d).data.length)
    (hbs : bs.length = 16) (htype : ∀ i, (nd' i).type = (nd i).type)
    (hdata : ∀ i, i ≠ d → (nd i).type = tDir → (nd' i).data = (nd i).data)
    (hself : (nd' d).data = overwrite (nd d).data (16*k) bs) :
    NameTree.SetEntry (tree nd) (tree nd') d (k-2) (ptr (Dirent.ofBytes bs).inum) where
  kind i := kind_congr (htype i)
  up i hi := by
    have hdir := kind_dir.mp hi
    change (slot (nd' i).data 1).inum = (slot (nd i).data 1).inum
    by_cases he : i = d
    · subst he
      rw [hself, slot_overwrite_ne hle hbs (by omega)]
    · rw [hdata i he hdir]
  self := by
    change (if (nd' d).type = tDir then ptr (slot (nd' d).data (k-2+2)).inum else none) = _
    rw [if_pos (by rw [htype, hd]), Nat.sub_add_cancel hk, hself, slot_overwrite_self hle hbs]
  other d' k' hne := by
    by_cases he : d' = d
    · subst he
      have hk' : k' + 2 ≠ k := fun he => hne ⟨rfl, by omega⟩
      change (if (nd' d').type = tDir then ptr (slot (nd' d').data (k'+2)).inum else none) =
        if (nd d').type = tDir then ptr (slot (nd d').data (k'+2)).inum else none
      rw [htype, hself, slot_overwrite_ne hle hbs hk']
    · exact entry_congr (htype d') (hdata d' he)

/-- The inodes after entry `k` of `d` has been set for `i`, with new link counts for both. -/
def relink (nd : Nat → Node) (d k : Nat) (bs : List UInt8) (i : Nat) (md mi : Int16) :
    Nat → Node :=
  Function.update (Function.update nd i { nd i with nlink := mi }) d
    { (nd d).write (16*k) bs with nlink := md }

section Relink
variable {md mi : Int16} {j : Nat}

theorem type_relink : (relink nd d k bs i md mi j).type = (nd j).type := by
  simp only [relink, Function.update_apply]
  split
  · subst_vars
    rfl
  · split
    · subst_vars
      rfl
    · rfl

theorem data_relink_self : (relink nd d k bs i md mi d).data = overwrite (nd d).data (16*k) bs := by
  rw [relink, Function.update_self]
  rfl

theorem data_relink_ne (hj : j ≠ d) : (relink nd d k bs i md mi j).data = (nd j).data := by
  simp only [relink, Function.update_apply, if_neg hj]
  split
  · subst_vars
    rfl
  · rfl

theorem links_relink_dir : (tree (relink nd d k bs i md mi)).links d = md.toUInt16.toNat := by
  change (relink nd d k bs i md mi d).nlink.toUInt16.toNat = _
  rw [relink, Function.update_self]

theorem links_relink_leaf (hid : i ≠ d) :
    (tree (relink nd d k bs i md mi)).links i = mi.toUInt16.toNat := by
  change (relink nd d k bs i md mi i).nlink.toUInt16.toNat = _
  rw [relink, Function.update_of_ne hid, Function.update_self]

theorem links_relink_ne (hjd : j ≠ d) (hji : j ≠ i) :
    (tree (relink nd d k bs i md mi)).links j = (tree nd).links j := by
  change (relink nd d k bs i md mi j).nlink.toUInt16.toNat = (nd j).nlink.toUInt16.toNat
  rw [relink, Function.update_of_ne hjd, Function.update_of_ne hji]

theorem setEntry_relink (hd : (nd d).type = tDir) (hk : 2 ≤ k) (hle : 16*k ≤ (nd d).data.length)
    (hbs : bs.length = 16) :
    NameTree.SetEntry (tree nd) (tree (relink nd d k bs i md mi)) d (k-2)
      (ptr (Dirent.ofBytes bs).inum) :=
  setEntry_tree hd hk hle hbs (fun _ => type_relink) (fun _ hj _ => data_relink_ne hj)
    data_relink_self

end Relink

theorem entry_vacant (hk : 2 ≤ k) (h0 : (slot (nd d).data k).inum = 0) :
    (tree nd).entry d (k-2) = none := by
  change (if (nd d).type = tDir then ptr (slot (nd d).data (k-2+2)).inum else none) = none
  rw [Nat.sub_add_cancel hk, h0]
  split
  · rfl
  · rfl

theorem DirOk.overwrite (h : DirOk data d) (hk : 2 ≤ k) (hle : 16*k ≤ data.length)
    (hbs : bs.length = 16) : DirOk (overwrite data (16*k) bs) d := by
  have hlen := @length_overwrite _ _ bs hle
  have hslot : ∀ j < 2, slot (Fs.overwrite data (16*k) bs) j = slot data j :=
    fun j hj => slot_overwrite_ne hle hbs (by omega)
  constructor
  · obtain ⟨m, hm⟩ := h.aligned
    rw [hlen, hbs, hm]
    by_cases hmk : m ≤ k
    · exact ⟨k+1, by omega⟩
    · exact ⟨m, by omega⟩
  · have := h.two
    rw [hlen]
    omega
  · rw [hslot 0 (by omega), h.dotInum]
  · rw [hslot 0 (by omega), h.dotName]
  · rw [hslot 1 (by omega)]
    exact h.dotdotInum
  · rw [hslot 1 (by omega), h.dotdotName]

/-- The first free entry comes after `.` and `..`. -/
theorem DirOk.two_le (h : DirOk data d) (hd : d ≠ 0) (hk : (slot data k).inum = 0) : 2 ≤ k := by
  by_contra hlt
  have hcases : k = 0 ∨ k = 1 := by omega
  cases hcases with
  | inl he =>
    rw [he, h.dotInum] at hk
    exact hd hk
  | inr he =>
    rw [he] at hk
    exact h.dotdotInum hk

namespace Shape

/-- What is named is in use, and has a link. -/
theorem linked (h : Shape N ref nd) (hl : (Sys.tree nd).Linked i) :
    (nd i).type ≠ 0 ∧ (nd i).nlink ≠ 0 := by
  have hused : (Sys.tree nd).kind i ≠ .free := fun hk => h.tree.not_linked_of_free hk hl
  refine ⟨fun h0 => hused (kind_free.mpr h0), fun hn => ?_⟩
  exact (h.tree.no_links hused (toNat_eq_zero.mpr hn)).1 hl

/-- Changes to what is neither a directory nor named, and to content. -/
theorem congrNamed (h : Shape N ref nd) (htype : ∀ i, (nd' i).type = (nd i).type)
    (hlink : ∀ i, (nd i).type = tDir ∨ (Sys.tree nd).Linked i → (nd' i).nlink = (nd i).nlink)
    (hdata : ∀ i, (nd i).type = tDir → (nd' i).data = (nd i).data) : Shape N ref nd' where
  count := h.count
  range i hi := h.range i (htype i ▸ hi)
  tree := by
    apply h.tree.congr
    · exact fun i => kind_congr (htype i)
    · intro i hi
      change (slot (nd' i).data 1).inum = (slot (nd i).data 1).inum
      rw [hdata i (kind_dir.mp hi)]
    · exact fun d k => entry_congr (htype d) (hdata d)
    · intro i hi
      change (nd' i).nlink.toUInt16.toNat = (nd i).nlink.toUInt16.toNat
      rw [hlink i (hi.imp_left kind_dir.mp)]
  dirs d hd := by
    rw [htype] at hd
    rw [hdata d hd]
    exact h.dirs d hd
  held i hi := by
    rw [htype]
    exact h.held i hi

/-- Changes to free inodes, and to the content of inodes that are not directories. -/
theorem congr (h : Shape N ref nd) (htype : ∀ i, (nd' i).type = (nd i).type)
    (hlink : ∀ i, (nd i).type ≠ 0 → (nd' i).nlink = (nd i).nlink)
    (hdata : ∀ i, (nd i).type = tDir → (nd' i).data = (nd i).data) : Shape N ref nd' := by
  apply h.congrNamed htype _ hdata
  intro i hi
  cases hi with
  | inl hd => exact hlink i (by rw [hd]; decide)
  | inr hl => exact hlink i (h.linked hl).1

/-- A free inode becomes one in use, without links. -/
theorem alloc {x : Node} (h : Shape N ref nd) (hi : (nd i).type = 0) (h0 : 0 < i) (hN : i < N)
    (hx : x.type ≠ 0) (hn : x.nlink = 0) (hdir : x.type = tDir → DirOk x.data i)
    (hempty : ∀ k, 2 ≤ k → x.type = tDir → (slot x.data k).inum = 0) :
    Shape N ref (Function.update nd i x) where
  count := h.count
  range j hj := by
    by_cases he : j = i
    · rw [he]
      exact ⟨h0, hN⟩
    · rw [Function.update_of_ne he] at hj
      exact h.range j hj
  tree := by
    apply h.tree.alloc (kind_free.mpr hi)
    · rw [Ne, kind_free, Function.update_self]
      exact hx
    · intro j hj
      exact kind_congr (by rw [Function.update_of_ne hj])
    · intro j hj
      change (Function.update nd i x j).nlink.toUInt16.toNat = _
      rw [Function.update_of_ne hj]
      rfl
    · change (Function.update nd i x i).nlink.toUInt16.toNat = 0
      rw [Function.update_self, hn]
      rfl
    · intro j hj
      change (slot (Function.update nd i x j).data 1).inum = _
      rw [Function.update_of_ne hj]
      rfl
    · intro d k
      by_cases hd : d = i
      · subst hd
        rw [h.tree.entry_of_free (by rw [kind_free.mpr hi]; decide)]
        change (if (Function.update nd d x d).type = tDir then
          ptr (slot (Function.update nd d x d).data (k+2)).inum else none) = none
        rw [Function.update_self]
        split
        · rename_i ht
          rw [hempty (k+2) (by omega) ht]
          rfl
        · rfl
      · exact entry_congr (by rw [Function.update_of_ne hd])
          (fun _ => by rw [Function.update_of_ne hd])
  dirs d hd := by
    by_cases he : d = i
    · subst he
      rw [Function.update_self] at hd ⊢
      exact hdir hd
    · rw [Function.update_of_ne he] at hd ⊢
      exact h.dirs d hd
  held j hj := by
    by_cases he : j = i
    · rw [he, Function.update_self]
      exact hx
    · rw [Function.update_of_ne he]
      exact h.held j hj

/-- An inode without links and references is freed. -/
theorem free {x : Node} (h : Shape N ref nd) (hi : (nd i).type ≠ 0) (hn : (nd i).nlink = 0)
    (href : ref i = 0) (hx : x.type = 0) : Shape N ref (Function.update nd i x) where
  count := h.count
  range j hj := by
    by_cases he : j = i
    · rw [he, Function.update_self] at hj
      exact absurd hx hj
    · rw [Function.update_of_ne he] at hj
      exact h.range j hj
  tree := by
    have h0 : (Sys.tree nd).links i = 0 := toNat_eq_zero.mpr hn
    apply h.tree.release (fun hk => hi (kind_free.mp hk)) h0
    · rw [kind_free, Function.update_self]
      exact hx
    · intro j hj
      exact kind_congr (by rw [Function.update_of_ne hj])
    · intro j hj _
      change (slot (Function.update nd i x j).data 1).inum = _
      rw [Function.update_of_ne hj]
      rfl
    · intro k
      change (if (Function.update nd i x i).type = tDir then _ else none) = none
      rw [Function.update_self, if_neg]
      rw [hx]
      decide
    · intro j hj k
      exact entry_congr (by rw [Function.update_of_ne hj])
        (fun _ => by rw [Function.update_of_ne hj])
    · intro j hj _
      change (Function.update nd i x j).nlink.toUInt16.toNat = _
      rw [Function.update_of_ne hj]
      rfl
  dirs d hd := by
    by_cases he : d = i
    · subst he
      rw [Function.update_self, hx] at hd
      exact absurd hd (by decide)
    · rw [Function.update_of_ne he] at hd ⊢
      exact h.dirs d hd
  held j hj := by
    by_cases he : j = i
    · rw [he] at hj
      omega
    · rw [Function.update_of_ne he]
      exact h.held j hj

/-- An entry is set, and the trees' counts follow: `htree` is the tree's part. -/
theorem relink {md mi : Int16} (h : Shape N ref nd) (hd : (nd d).type = tDir) (hk : 2 ≤ k)
    (hle : 16*k ≤ (nd d).data.length) (hbs : bs.length = 16)
    (htree : (Sys.tree (Sys.relink nd d k bs i md mi)).Sound rootino) :
    Shape N ref (Sys.relink nd d k bs i md mi) where
  count := h.count
  range j hj := h.range j (by rwa [type_relink] at hj)
  tree := htree
  dirs j hj := by
    rw [type_relink] at hj
    by_cases he : j = d
    · subst he
      rw [data_relink_self]
      exact (h.dirs j hj).overwrite hk hle hbs
    · rw [data_relink_ne he]
      exact h.dirs j hj
  held j hj := by
    rw [type_relink]
    exact h.held j hj

theorem two_le (h : Shape N ref nd) (hd : (nd d).type = tDir) (hk : (slot (nd d).data k).inum = 0) :
    2 ≤ k :=
  (h.dirs d hd).two_le (Nat.pos_iff_ne_zero.mp (h.range d (by rw [hd]; decide)).1) hk

theorem ptr_bytes (h : Shape N ref nd) (hi : (nd i).type ≠ 0) (name : Str) :
    ptr (Dirent.ofBytes (Dirent.bytes i name)).inum = some i := by
  have hr := h.range i hi
  have hN := h.count
  rw [ofBytes_bytes i name (by omega)]
  exact ptr_eq_some.mpr ⟨rfl, by omega⟩

/-- A leaf gets one more name. -/
theorem link (h : Shape N ref nd) (hd : (nd d).type = tDir) (hv : Vacant (nd d).data k)
    (hi : (nd i).type ≠ 0) (hleaf : (nd i).type ≠ tDir) (hn : (nd i).nlink ≠ -1) (name : Str) :
    Shape N ref (Sys.relink nd d k (Dirent.bytes i name) i (nd d).nlink ((nd i).nlink + 1)) := by
  have hk := h.two_le hd hv.empty
  have hid : i ≠ d := fun he => hleaf (he ▸ hd)
  apply h.relink hd hk hv.le (bytes_length i name)
  apply h.tree.linkLeaf (h.ptr_bytes hi name ▸ setEntry_relink hd hk hv.le (bytes_length i name))
  · exact kind_dir.mpr hd
  · exact entry_vacant hk hv.empty
  · exact kind_leaf.mpr ⟨hi, hleaf⟩
  · rw [links_relink_leaf hid]
    exact toNat_add_one hn
  · intro j hj _
    by_cases hjd : j = d
    · rw [hjd, links_relink_dir]
      rfl
    · exact links_relink_ne hjd hj

/-- A leaf loses one of its names. -/
theorem unlink (h : Shape N ref nd) (hd : (nd d).type = tDir) (hk : 2 ≤ k)
    (hle : 16*k ≤ (nd d).data.length) (hki : (slot (nd d).data k).inum = i) (hi0 : i ≠ 0)
    (hleaf : (nd i).type ≠ tDir) (hn : (nd i).nlink ≠ 0) :
    Shape N ref (Sys.relink nd d k (List.replicate 16 0) i (nd d).nlink ((nd i).nlink - 1)) := by
  have hid : i ≠ d := fun he => hleaf (he ▸ hd)
  have hentry : (Sys.tree nd).entry d (k-2) = some i :=
    entry_eq_some.mpr ⟨hd, by rw [Nat.sub_add_cancel hk, hki], hi0⟩
  have halive : (nd i).type ≠ 0 := fun h0 => h.tree.alive hentry (kind_free.mpr h0)
  apply h.relink hd hk hle List.length_replicate
  apply h.tree.cutLeaf (setEntry_relink hd hk hle List.length_replicate) hentry
  · exact kind_leaf.mpr ⟨halive, hleaf⟩
  · rw [links_relink_leaf hid]
    exact toNat_sub_one hn
  · intro j hj _
    by_cases hjd : j = d
    · rw [hjd, links_relink_dir]
      rfl
    · exact links_relink_ne hjd hj

/-- There is room for one more directory in the count of `d`: there are fewer inodes than the
count can hold. -/
theorem nlink_dir (h : Shape N ref nd) (hd : (nd d).type = tDir) (hi : (nd i).type ≠ 0)
    (hn : (nd i).nlink = 0) : (nd d).nlink ≠ -1 := by
  have hik : (Sys.tree nd).kind i ≠ .free := fun hk => hi (kind_free.mp hk)
  obtain ⟨hnot, hroot, -⟩ := h.tree.no_links hik (toNat_eq_zero.mpr hn)
  have hri := h.range i hi
  have hN := h.count
  have hle := h.tree.links_le (kind_dir.mpr hd)
    (S := ((Finset.Ico 2 65536).erase i : Finset Nat)) (by
      intro k c he hc
      have hc0 : (nd c).type ≠ 0 := by
        rw [kind_dir.mp hc]
        decide
      have hrc := h.range c hc0
      have hcr : c ≠ 1 := (h.tree.up he hc).2
      have hci : c ≠ i := fun hci => hnot ⟨d, k, hci ▸ he⟩
      simp only [Finset.coe_erase, Set.mem_sdiff, Finset.mem_coe, Finset.mem_Ico,
        Set.mem_singleton_iff]
      exact ⟨⟨by omega, by omega⟩, hci⟩)
  have hmem : i ∈ Finset.Ico 2 65536 := by
    have hi1 : i ≠ 1 := hroot
    rw [Finset.mem_Ico]
    omega
  rw [Set.encard_coe_eq_coe_finsetCard, Finset.card_erase_of_mem hmem, Nat.card_Ico] at hle
  intro hm
  have : (Sys.tree nd).links d = 65535 := by
    change (nd d).nlink.toUInt16.toNat = 65535
    rw [hm]
    rfl
  rw [this] at hle
  have hle' : 65535 ≤ 1 + (65536 - 2 - 1) := by exact_mod_cast hle
  omega

/-- A directory without links gets its name in the directory that its `..` names. -/
theorem linkDir (h : Shape N ref nd) (hd : (nd d).type = tDir) (hv : Vacant (nd d).data k)
    (hi : (nd i).type = tDir) (hn : (nd i).nlink = 0) (hup : (slot (nd i).data 1).inum = d)
    (hid : i ≠ d) (name : Str) :
    Shape N ref (Sys.relink nd d k (Dirent.bytes i name) i ((nd d).nlink + 1)
      ((nd i).nlink + 1)) := by
  have hi0 : (nd i).type ≠ 0 := by
    rw [hi]
    decide
  have hk := h.two_le hd hv.empty
  obtain ⟨hnot, hroot, -⟩ := h.tree.no_links (fun hk => hi0 (kind_free.mp hk))
    (toNat_eq_zero.mpr hn)
  apply h.relink hd hk hv.le (bytes_length i name)
  apply h.tree.linkDir (h.ptr_bytes hi0 name ▸ setEntry_relink hd hk hv.le (bytes_length i name))
    (kind_dir.mpr hd) (entry_vacant hk hv.empty) (kind_dir.mpr hi) hnot hroot hup hid.symm
  · rw [links_relink_leaf hid]
    exact toNat_add_one (by rw [hn]; decide)
  · rw [links_relink_dir]
    exact toNat_add_one (h.nlink_dir hd hi0 hn)
  · intro j hj hjd _
    exact links_relink_ne hjd hj

/-- A directory loses its name. -/
theorem unlinkDir (h : Shape N ref nd) (hd : (nd d).type = tDir) (hk : 2 ≤ k)
    (hle : 16*k ≤ (nd d).data.length) (hki : (slot (nd d).data k).inum = i) (hi0 : i ≠ 0)
    (hi : (nd i).type = tDir) (hn : (nd i).nlink ≠ 0) (hid : i ≠ d) :
    Shape N ref (Sys.relink nd d k (List.replicate 16 0) i ((nd d).nlink - 1)
      ((nd i).nlink - 1)) := by
  have hentry : (Sys.tree nd).entry d (k-2) = some i :=
    entry_eq_some.mpr ⟨hd, by rw [Nat.sub_add_cancel hk, hki], hi0⟩
  have hnd : (nd d).nlink ≠ 0 := by
    intro h0
    have hsub := (h.tree.no_links (by rw [kind_dir.mpr hd]; decide) (toNat_eq_zero.mpr h0)).2.2
    have : k-2 ∈ (Sys.tree nd).subdirs d := ⟨i, hentry, kind_dir.mpr hi⟩
    rw [hsub] at this
    exact this
  apply h.relink hd hk hle List.length_replicate
  apply h.tree.cutDir (setEntry_relink hd hk hle List.length_replicate) hentry
    (kind_dir.mpr hi) hid.symm
  · rw [links_relink_leaf hid]
    exact toNat_sub_one hn
  · rw [links_relink_dir]
    exact toNat_sub_one hnd
  · intro j hj hjd _
    exact links_relink_ne hjd hj

end Shape

end

end Xv6Labs.Sys
