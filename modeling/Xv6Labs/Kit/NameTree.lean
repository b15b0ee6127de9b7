import Mathlib.Data.Set.Card

/-! Trees of names with link counts, in the manner of a Unix file system: directories have
entries that name leaves and directories, a leaf may have many names, and a directory has one
name and knows the directory above it. The entries of a directory for itself and for the one
above stand outside the entries here. -/
namespace Kit

inductive Kind where
  | free
  | dir
  | leaf
  deriving DecidableEq

@[ext] structure NameTree (ι κ : Type*) where
  kind : ι → Kind
  links : ι → ℕ
  entry : ι → κ → Option ι
  up : ι → ι

namespace NameTree
variable {ι κ : Type*}

def Linked (T : NameTree ι κ) (c : ι) : Prop := ∃ d k, T.entry d k = some c

/-- The places where `c` is named. -/
def names (T : NameTree ι κ) (c : ι) : Set (ι × κ) := {p | T.entry p.1 p.2 = some c}

/-- The entries of `d` that are directories. -/
def subdirs (T : NameTree ι κ) (d : ι) : Set κ := {k | ∃ c, T.entry d k = some c ∧ T.kind c = .dir}

open Classical in
/-- The link of a directory that the one above gives it; the root has it from the start. -/
noncomputable def own (T : NameTree ι κ) (root d : ι) : ℕ∞ :=
  if d = root ∨ T.Linked d then 1 else 0

structure Sound (root : ι) (T : NameTree ι κ) : Prop where
  rootDir : T.kind root = .dir
  rootUp : T.up root = root
  inDir : ∀ {d k c}, T.entry d k = some c → T.kind d = .dir
  alive : ∀ {d k c}, T.entry d k = some c → T.kind c ≠ .free
  up : ∀ {d k c}, T.entry d k = some c → T.kind c = .dir → T.up c = d ∧ c ≠ root
  once : ∀ {d k k' c}, T.entry d k = some c → T.entry d k' = some c → T.kind c = .dir → k = k'
  leaf : ∀ {c}, T.kind c = .leaf → (T.names c).encard ≤ T.links c
  dir : ∀ {d}, T.kind d = .dir → (T.links d : ℕ∞) = T.own root d + (T.subdirs d).encard

variable {T T' : NameTree ι κ} {root c d : ι} {k : κ}

/-- `T'` is `T` with the entry `k` of `d` set to `v`; the counts are left open. -/
structure SetEntry (T T' : NameTree ι κ) (d : ι) (k : κ) (v : Option ι) : Prop where
  kind : ∀ x, T'.kind x = T.kind x
  up : ∀ x, T.kind x = .dir → T'.up x = T.up x
  self : T'.entry d k = v
  other : ∀ d' k', ¬ (d' = d ∧ k' = k) → T'.entry d' k' = T.entry d' k'

/-- An entry of the new tree is the new one or an old one. -/
theorem SetEntry.cases {v : Option ι} (h : SetEntry T T' d k v) {d' : ι} {k' : κ} {x : ι}
    (hx : T'.entry d' k' = some x) : (d' = d ∧ k' = k ∧ v = some x) ∨ T.entry d' k' = some x := by
  by_cases hp : d' = d ∧ k' = k
  · obtain ⟨rfl, rfl⟩ := hp
    exact .inl ⟨rfl, rfl, by rw [← h.self, hx]⟩
  · exact .inr (by rw [← h.other d' k' hp, hx])

theorem SetEntry.keep {v : Option ι} (h : SetEntry T T' d k v) (h0 : T.entry d k = none)
    {d' : ι} {k' : κ} {x : ι} (hx : T.entry d' k' = some x) : T'.entry d' k' = some x := by
  rw [h.other d' k', hx]
  intro hp
  obtain ⟨rfl, rfl⟩ := hp
  rw [h0] at hx
  cases hx

/-- What names another node than the new entry does is old. -/
theorem SetEntry.back (hs : SetEntry T T' d k (some c)) {d' x : ι} {k' : κ}
    (he : T'.entry d' k' = some x) (hx : x ≠ c) : T.entry d' k' = some x := by
  cases hs.cases he with
  | inl hnew => exact absurd (Option.some.inj hnew.2.2).symm hx
  | inr hold => exact hold

theorem SetEntry.linked_iff (hs : SetEntry T T' d k (some c)) (h0 : T.entry d k = none) {x : ι}
    (hx : x ≠ c) : T'.Linked x ↔ T.Linked x := by
  constructor
  · intro hl
    obtain ⟨d', k', he⟩ := hl
    exact ⟨d', k', hs.back he hx⟩
  · intro hl
    obtain ⟨d', k', he⟩ := hl
    exact ⟨d', k', hs.keep h0 he⟩

theorem SetEntry.old (hs : SetEntry T T' d k none) {d' : ι} {k' : κ}
    {x : ι} (he : T'.entry d' k' = some x) : T.entry d' k' = some x ∧ ¬ (d' = d ∧ k' = k) := by
  refine ⟨?_, ?_⟩
  · cases hs.cases he with
    | inl hnew => cases hnew.2.2
    | inr hold => exact hold
  · intro hp
    rw [hp.1, hp.2, hs.self] at he
    cases he

theorem SetEntry.stay (hs : SetEntry T T' d k none) (he : T.entry d k = some c) {d' x : ι} {k' : κ}
    (hx : T.entry d' k' = some x) (hxc : x ≠ c) : T'.entry d' k' = some x := by
  rw [hs.other d' k', hx]
  intro hp
  rw [hp.1, hp.2, he] at hx
  exact hxc (Option.some.inj hx).symm

theorem SetEntry.linked_iff_cut (hs : SetEntry T T' d k none) (he : T.entry d k = some c) {x : ι}
    (hx : x ≠ c) : T'.Linked x ↔ T.Linked x := by
  constructor
  · intro hl
    obtain ⟨d', k', he'⟩ := hl
    exact ⟨d', k', (hs.old he').1⟩
  · intro hl
    obtain ⟨d', k', he'⟩ := hl
    exact ⟨d', k', hs.stay he he' hx⟩

theorem SetEntry.subdirs_ne {v : Option ι} (hs : SetEntry T T' d k v) {x : ι} (hx : x ≠ d) :
    T'.subdirs x = T.subdirs x := by
  ext k'
  simp only [subdirs, Set.mem_ofPred_eq, hs.other x k' fun hp => hx hp.1, hs.kind]

theorem SetEntry.subdirs_insert (hs : SetEntry T T' d k (some c)) (h0 : T.entry d k = none)
    (hc : T.kind c = .dir) : T'.subdirs d = insert k (T.subdirs d) := by
  ext k'
  constructor
  · intro hm
    obtain ⟨y, he, hy⟩ := hm
    cases hs.cases he with
    | inl hnew => exact .inl hnew.2.1
    | inr hold => exact .inr ⟨y, hold, by rw [← hs.kind, hy]⟩
  · intro hm
    cases hm with
    | inl he => exact ⟨c, by rw [he, hs.self], by rw [hs.kind, hc]⟩
    | inr hold =>
      obtain ⟨y, he, hy⟩ := hold
      exact ⟨y, hs.keep h0 he, by rw [hs.kind, hy]⟩

theorem SetEntry.subdirs_erase (hs : SetEntry T T' d k none) :
    T'.subdirs d = T.subdirs d \ {k} := by
  ext k'
  constructor
  · intro hm
    obtain ⟨y, he, hy⟩ := hm
    obtain ⟨hold, hne⟩ := hs.old he
    exact ⟨⟨y, hold, by rw [← hs.kind, hy]⟩, fun hk => hne ⟨rfl, hk⟩⟩
  · intro hm
    obtain ⟨⟨y, he, hy⟩, hk⟩ := hm
    exact ⟨y, by rw [hs.other d k' fun hp => hk hp.2, he], by rw [hs.kind, hy]⟩

theorem le_sub_one_of_add_one_le {x : ℕ∞} {n : ℕ} (h : x + 1 ≤ n) : x ≤ ((n-1 : ℕ) : ℕ∞) := by
  have hx : x ≠ ⊤ := by
    intro htop
    rw [htop, top_add] at h
    exact absurd (top_le_iff.mp h) (ENat.natCast_ne_top n)
  lift x to ℕ using hx
  norm_cast at h ⊢
  omega

theorem sub_one_eq {x y : ℕ∞} {n : ℕ} (h : (n : ℕ∞) = x + (y + 1)) :
    ((n-1 : ℕ) : ℕ∞) = x + y := by
  have hx : x ≠ ⊤ := by
    intro htop
    rw [htop, top_add] at h
    exact ENat.natCast_ne_top n h
  have hy : y ≠ ⊤ := by
    intro htop
    rw [htop, top_add, add_top] at h
    exact ENat.natCast_ne_top n h
  lift x to ℕ using hx
  lift y to ℕ using hy
  norm_cast at h ⊢
  omega

theorem own_pos (h : d = root ∨ T.Linked d) : T.own root d = 1 := by
  unfold own
  rw [if_pos h]

theorem own_neg (h : ¬ (d = root ∨ T.Linked d)) : T.own root d = 0 := by
  unfold own
  rw [if_neg h]

theorem own_congr (h : T'.Linked d ↔ T.Linked d) : T'.own root d = T.own root d := by
  by_cases hd : d = root ∨ T.Linked d
  · rw [own_pos hd, own_pos (by rwa [h])]
  · rw [own_neg hd, own_neg (by rwa [h])]

namespace Sound

/-- A free node is not named, and has no entries. -/
theorem not_linked_of_free (h : Sound root T) (hc : T.kind c = .free) : ¬ T.Linked c := by
  intro hl
  obtain ⟨d, k, he⟩ := hl
  exact h.alive he hc

theorem entry_of_free (h : Sound root T) (hc : T.kind c ≠ .dir) (k : κ) : T.entry c k = none := by
  cases he : T.entry c k with
  | none => rfl
  | some x => exact absurd (h.inDir he) hc

/-- A node without links is not the root and nothing names it; a directory without links has no
directory in it. -/
theorem no_links (h : Sound root T) (hc : T.kind c ≠ .free) (h0 : T.links c = 0) :
    ¬ T.Linked c ∧ c ≠ root ∧ T.subdirs c = ∅ := by
  cases hk : T.kind c with
  | free => exact absurd hk hc
  | leaf =>
    have hle := h.leaf hk
    rw [h0, Nat.cast_zero, nonpos_iff_eq_zero, Set.encard_eq_zero] at hle
    refine ⟨?_, ?_, ?_⟩
    · intro hl
      obtain ⟨d, k, he⟩ := hl
      have : (d, k) ∈ T.names c := he
      rw [hle] at this
      exact this
    · intro he
      rw [he, h.rootDir] at hk
      cases hk
    · ext k
      simp [subdirs, h.entry_of_free (by rw [hk]; decide) k]
  | dir =>
    have heq := h.dir hk
    rw [h0, Nat.cast_zero, eq_comm, add_eq_zero, Set.encard_eq_zero] at heq
    have hown : ¬ (c = root ∨ T.Linked c) := by
      intro hor
      rw [own_pos hor] at heq
      exact one_ne_zero heq.1
    exact ⟨fun hl => hown (.inr hl), fun he => hown (.inl he), heq.2⟩

/-- A directory has at most one link more than there are directories to be named. -/
theorem links_le (h : Sound root T) (hd : T.kind d = .dir) {S : Set ι}
    (hS : ∀ {k c}, T.entry d k = some c → T.kind c = .dir → c ∈ S) :
    (T.links d : ℕ∞) ≤ 1 + S.encard := by
  rw [h.dir hd]
  have hown : T.own root d ≤ 1 := by
    by_cases hd : d = root ∨ T.Linked d
    · rw [own_pos hd]
    · rw [own_neg hd]
      exact zero_le_one
  have hmaps : Set.MapsTo (fun k => (T.entry d k).getD root) (T.subdirs d) S := by
    intro k hk
    obtain ⟨c, he, hc⟩ := hk
    simp only [he, Option.getD_some]
    exact hS he hc
  have hinj : Set.InjOn (fun k => (T.entry d k).getD root) (T.subdirs d) := by
    intro k hk k' hk' he
    obtain ⟨c, hc, hdir⟩ := hk
    obtain ⟨c', hc', -⟩ := hk'
    simp only [hc, hc', Option.getD_some] at he
    subst he
    exact h.once hc hc' hdir
  exact add_le_add hown (Set.encard_le_encard_of_injOn hmaps hinj)

/-- A tree with some of the entries of `T`, the counts of which come from elsewhere. A
directory that nothing names may have anything above it. -/
theorem shrink (h : Sound root T) (hroot : T'.kind root = .dir)
    (hup : ∀ x, T'.kind x = .dir → x = root ∨ T'.Linked x → T'.up x = T.up x)
    (hentry : ∀ {d k x}, T'.entry d k = some x →
      T.entry d k = some x ∧ T'.kind d = T.kind d ∧ T'.kind x = T.kind x)
    (hleaf : ∀ {c}, T'.kind c = .leaf → (T'.names c).encard ≤ T'.links c)
    (hdir : ∀ {d}, T'.kind d = .dir →
      (T'.links d : ℕ∞) = T'.own root d + (T'.subdirs d).encard) : Sound root T' := by
  refine ⟨hroot, ?_, ?_, ?_, ?_, ?_, hleaf, hdir⟩
  · rw [hup root hroot (.inl rfl), h.rootUp]
  · intro d k x he
    obtain ⟨he, hd, -⟩ := hentry he
    rw [hd]
    exact h.inDir he
  · intro d k x he
    obtain ⟨he, -, hx⟩ := hentry he
    rw [hx]
    exact h.alive he
  · intro d k x he hk
    rw [hup x hk (.inr ⟨d, k, he⟩)]
    obtain ⟨he, -, hx⟩ := hentry he
    exact h.up he (hx ▸ hk)
  · intro d k k' x he he' hk
    obtain ⟨he, -, hx⟩ := hentry he
    exact h.once he (hentry he').1 (hx ▸ hk)

/-- What the link counts come from is unchanged, so they may stay. The count of a node that
nothing names may be any, but for a directory. -/
theorem congr (h : Sound root T) (hkind : ∀ x, T'.kind x = T.kind x)
    (hup : ∀ x, T.kind x = .dir → T'.up x = T.up x) (hentry : ∀ d k, T'.entry d k = T.entry d k)
    (hlinks : ∀ x, T.kind x = .dir ∨ T.Linked x → T'.links x = T.links x) : Sound root T' := by
  have hnames : ∀ x, T'.names x = T.names x := by
    intro x
    ext p
    simp [names, hentry]
  have hsub : ∀ x, T'.subdirs x = T.subdirs x := by
    intro x
    ext k
    simp [subdirs, hentry, hkind]
  have hown : ∀ x, T'.own root x = T.own root x := by
    intro x
    exact own_congr (by simp only [Linked, hentry])
  apply h.shrink (by rw [hkind, h.rootDir])
  · intro x hk _
    exact hup x (by rw [← hkind, hk])
  · intro d k x he
    exact ⟨by rw [← hentry, he], hkind d, hkind x⟩
  · intro c hk
    rw [hkind] at hk
    rw [hnames]
    by_cases hl : T.Linked c
    · rw [hlinks c (.inr hl)]
      exact h.leaf hk
    · have hnone : T.names c = ∅ := Set.eq_empty_of_forall_notMem fun p hp => hl ⟨p.1, p.2, hp⟩
      rw [hnone, Set.encard_empty]
      exact zero_le
  · intro d hk
    rw [hkind] at hk
    rw [hsub, hown, hlinks d (.inl hk)]
    exact h.dir hk

/-- A free node gets a kind, without links. -/
theorem alloc (h : Sound root T) (hc : T.kind c = .free) (hne : T'.kind c ≠ .free)
    (hkind : ∀ x ≠ c, T'.kind x = T.kind x) (hlinks : ∀ x ≠ c, T'.links x = T.links x)
    (h0 : T'.links c = 0) (hup : ∀ x ≠ c, T'.up x = T.up x)
    (hentry : ∀ d k, T'.entry d k = T.entry d k) : Sound root T' := by
  have hnot := h.not_linked_of_free hc
  have hroot : root ≠ c := by
    intro he
    rw [← he, h.rootDir] at hc
    cases hc
  have hold : ∀ {d k x}, T'.entry d k = some x → T.entry d k = some x ∧ d ≠ c ∧ x ≠ c := by
    intro d k x he
    rw [hentry] at he
    refine ⟨he, ?_, ?_⟩
    · intro hd
      have := h.inDir he
      rw [hd, hc] at this
      cases this
    · intro hx
      exact hnot ⟨d, k, hx ▸ he⟩
  have hown : ∀ x, T'.own root x = T.own root x := by
    intro x
    exact own_congr (by simp only [Linked, hentry])
  apply h.shrink (by rw [hkind root hroot, h.rootDir])
  · intro x _ hor
    apply hup x
    obtain rfl | ⟨d, k, he⟩ := hor
    · exact hroot
    · exact (hold he).2.2
  · intro d k x he
    obtain ⟨he, hd, hx⟩ := hold he
    exact ⟨he, hkind d hd, hkind x hx⟩
  · intro x hk
    have hnames : T'.names x = T.names x := by
      ext p
      simp [names, hentry]
    rw [hnames]
    by_cases hx : x = c
    · subst hx
      have hempty : T.names x = ∅ := by
        ext p
        simp only [names, Set.mem_ofPred_eq, Set.mem_empty_iff_false, iff_false]
        intro he
        exact hnot ⟨p.1, p.2, he⟩
      simp [hempty]
    · rw [hkind x hx] at hk
      rw [hlinks x hx]
      exact h.leaf hk
  · intro d hk
    have hsub : T'.subdirs d = T.subdirs d := by
      ext k
      constructor
      · intro hm
        obtain ⟨x, he, hx⟩ := hm
        obtain ⟨he, -, hne⟩ := hold he
        exact ⟨x, he, by rw [← hkind x hne, hx]⟩
      · intro hm
        obtain ⟨x, he, hx⟩ := hm
        have he' : T'.entry d k = some x := by rw [hentry, he]
        exact ⟨x, he', by rw [hkind x (hold he').2.2, hx]⟩
    rw [hsub, hown]
    by_cases hd : d = c
    · subst hd
      have hempty : T.subdirs d = ∅ := by
        ext k
        simp [subdirs, h.entry_of_free (by rw [hc]; decide) k]
      have hzero : T.own root d = 0 := by
        apply own_neg
        intro hor
        cases hor with
        | inl he => exact hroot he.symm
        | inr hl => exact hnot hl
      rw [h0, hempty, hzero]
      simp
    · rw [hkind d hd] at hk
      rw [hlinks d hd]
      exact h.dir hk

theorem set_inDir (h : Sound root T) (hs : SetEntry T T' d k (some c)) (hd : T.kind d = .dir)
    {d' x : ι} {k' : κ} (he : T'.entry d' k' = some x) : T'.kind d' = .dir := by
  rw [hs.kind]
  cases hs.cases he with
  | inl hnew => rw [hnew.1, hd]
  | inr hold => exact h.inDir hold

theorem set_alive (h : Sound root T) (hs : SetEntry T T' d k (some c)) (hc : T.kind c ≠ .free)
    {d' x : ι} {k' : κ} (he : T'.entry d' k' = some x) : T'.kind x ≠ .free := by
  rw [hs.kind]
  cases hs.cases he with
  | inl hnew =>
    rw [← Option.some.inj hnew.2.2]
    exact hc
  | inr hold => exact h.alive hold

/-- A leaf gets one more name. -/
theorem linkLeaf (h : Sound root T) (hs : SetEntry T T' d k (some c)) (hd : T.kind d = .dir)
    (h0 : T.entry d k = none) (hc : T.kind c = .leaf) (hself : T'.links c = T.links c + 1)
    (hlinks : ∀ x ≠ c, T.kind x ≠ .free → T'.links x = T.links x) : Sound root T' := by
  have hdir : ∀ {x}, T.kind x = .dir → x ≠ c := by
    intro x hx he
    rw [he, hc] at hx
    cases hx
  constructor
  · rw [hs.kind, h.rootDir]
  · rw [hs.up root h.rootDir, h.rootUp]
  · exact h.set_inDir hs hd
  · exact h.set_alive hs (by rw [hc]; decide)
  · intro d' k' x he hx
    rw [hs.kind] at hx
    rw [hs.up x hx]
    exact h.up (hs.back he (hdir hx)) hx
  · intro d' k1 k2 x he he' hx
    rw [hs.kind] at hx
    exact h.once (hs.back he (hdir hx)) (hs.back he' (hdir hx)) hx
  · intro x hx
    rw [hs.kind] at hx
    by_cases hxc : x = c
    · subst hxc
      have hsub : T'.names x ⊆ insert (d, k) (T.names x) := by
        intro p hp
        cases hs.cases hp with
        | inl hnew => exact .inl (Prod.ext hnew.1 hnew.2.1)
        | inr hold => exact .inr hold
      calc (T'.names x).encard ≤ (insert (d, k) (T.names x)).encard := Set.encard_le_encard hsub
        _ ≤ (T.names x).encard + 1 := Set.encard_insert_le _ _
        _ ≤ (T.links x : ℕ∞) + 1 := by gcongr; exact h.leaf hx
        _ = (T'.links x : ℕ∞) := by rw [hself]; norm_cast
    · have hsub : T'.names x ⊆ T.names x := fun p hp => hs.back hp hxc
      rw [hlinks x hxc (by rw [hx]; decide)]
      exact (Set.encard_le_encard hsub).trans (h.leaf hx)
  · intro x hx
    rw [hs.kind] at hx
    have hsub : T'.subdirs x = T.subdirs x := by
      ext k'
      constructor
      · intro hm
        obtain ⟨y, he, hy⟩ := hm
        rw [hs.kind] at hy
        exact ⟨y, hs.back he (hdir hy), hy⟩
      · intro hm
        obtain ⟨y, he, hy⟩ := hm
        exact ⟨y, hs.keep h0 he, by rw [hs.kind, hy]⟩
    rw [hsub, own_congr (hs.linked_iff h0 (hdir hx)), hlinks x (hdir hx) (by rw [hx]; decide)]
    exact h.dir hx

/-- A directory that nothing names gets its name. -/
theorem linkDir (h : Sound root T) (hs : SetEntry T T' d k (some c)) (hd : T.kind d = .dir)
    (h0 : T.entry d k = none) (hc : T.kind c = .dir) (hnot : ¬ T.Linked c) (hroot : c ≠ root)
    (hup : T.up c = d) (hdc : d ≠ c) (hself : T'.links c = T.links c + 1)
    (habove : T'.links d = T.links d + 1)
    (hlinks : ∀ x, x ≠ c → x ≠ d → T.kind x ≠ .free → T'.links x = T.links x) :
    Sound root T' := by
  have hplace : ∀ {d' k'}, T'.entry d' k' = some c → d' = d ∧ k' = k := by
    intro d' k' he
    cases hs.cases he with
    | inl hnew => exact ⟨hnew.1, hnew.2.1⟩
    | inr hold => exact absurd ⟨d', k', hold⟩ hnot
  constructor
  · rw [hs.kind, h.rootDir]
  · rw [hs.up root h.rootDir, h.rootUp]
  · exact h.set_inDir hs hd
  · exact h.set_alive hs (by rw [hc]; decide)
  · intro d' k' x he hx
    rw [hs.kind] at hx
    rw [hs.up x hx]
    by_cases hxc : x = c
    · subst hxc
      rw [hup, (hplace he).1]
      exact ⟨rfl, hroot⟩
    · exact h.up (hs.back he hxc) hx
  · intro d' k1 k2 x he he' hx
    rw [hs.kind] at hx
    by_cases hxc : x = c
    · subst hxc
      rw [(hplace he).2, (hplace he').2]
    · exact h.once (hs.back he hxc) (hs.back he' hxc) hx
  · intro x hx
    rw [hs.kind] at hx
    have hxc : x ≠ c := by
      intro he
      rw [he, hc] at hx
      cases hx
    have hxd : x ≠ d := by
      intro he
      rw [he, hd] at hx
      cases hx
    rw [hlinks x hxc hxd (by rw [hx]; decide)]
    exact (Set.encard_le_encard fun p hp => hs.back hp hxc).trans (h.leaf hx)
  · intro x hx
    rw [hs.kind] at hx
    by_cases hxc : x = c
    · subst hxc
      have hown : T'.own root x = 1 := own_pos (.inr ⟨d, k, hs.self⟩)
      have hzero : T.own root x = 0 := own_neg fun hor => hor.elim hroot hnot
      have heq := h.dir hx
      rw [hzero, zero_add] at heq
      rw [hself, hown, hs.subdirs_ne hdc.symm, ← heq, add_comm]
      norm_cast
    · have hown : T'.own root x = T.own root x := own_congr (hs.linked_iff h0 hxc)
      by_cases hxd : x = d
      · subst hxd
        have hk : k ∉ T.subdirs x := by
          intro hm
          obtain ⟨y, he, -⟩ := hm
          rw [h0] at he
          cases he
        rw [habove, hown, hs.subdirs_insert h0 hc, Set.encard_insert_of_notMem hk, ← add_assoc,
          ← h.dir hx]
        norm_cast
      · rw [hlinks x hxc hxd (by rw [hx]; decide), hown, hs.subdirs_ne hxd]
        exact h.dir hx

/-- A leaf loses one of its names. -/
theorem cutLeaf (h : Sound root T) (hs : SetEntry T T' d k none) (he : T.entry d k = some c)
    (hc : T.kind c = .leaf) (hself : T'.links c = T.links c - 1)
    (hlinks : ∀ x ≠ c, T.kind x ≠ .free → T'.links x = T.links x) : Sound root T' := by
  have hne : ∀ {x}, T.kind x = .dir → x ≠ c := by
    intro x hx hxc
    rw [hxc, hc] at hx
    cases hx
  apply h.shrink (by rw [hs.kind, h.rootDir])
  · intro x hx _
    exact hs.up x (by rw [← hs.kind, hx])
  · intro d' k' x he'
    exact ⟨(hs.old he').1, hs.kind _, hs.kind _⟩
  · intro x hx
    rw [hs.kind] at hx
    have hsub : T'.names x ⊆ T.names x := fun p hp => (hs.old hp).1
    by_cases hxc : x = c
    · subst hxc
      have hmem : (d, k) ∈ T.names x := he
      have hdiff : T'.names x ⊆ T.names x \ {(d, k)} := by
        intro p hp
        exact ⟨hsub hp, fun hpe => (hs.old hp).2 ⟨congrArg Prod.fst hpe, congrArg Prod.snd hpe⟩⟩
      rw [hself]
      apply (Set.encard_le_encard hdiff).trans
      apply le_sub_one_of_add_one_le
      rw [Set.encard_sdiff_singleton_add_one hmem]
      exact h.leaf hx
    · rw [hlinks x hxc (by rw [hx]; decide)]
      exact (Set.encard_le_encard hsub).trans (h.leaf hx)
  · intro x hx
    rw [hs.kind] at hx
    have hsub : T'.subdirs x = T.subdirs x := by
      ext k'
      constructor
      · intro hm
        obtain ⟨y, he', hy⟩ := hm
        exact ⟨y, (hs.old he').1, by rw [← hs.kind, hy]⟩
      · intro hm
        obtain ⟨y, he', hy⟩ := hm
        exact ⟨y, hs.stay he he' (hne hy), by rw [hs.kind, hy]⟩
    have hown : T'.own root x = T.own root x := own_congr (hs.linked_iff_cut he (hne hx))
    rw [hsub, hown, hlinks x (hne hx) (by rw [hx]; decide)]
    exact h.dir hx

/-- A directory loses its name. -/
theorem cutDir (h : Sound root T) (hs : SetEntry T T' d k none) (he : T.entry d k = some c)
    (hc : T.kind c = .dir) (hdc : d ≠ c) (hself : T'.links c = T.links c - 1)
    (habove : T'.links d = T.links d - 1)
    (hlinks : ∀ x, x ≠ c → x ≠ d → T.kind x ≠ .free → T'.links x = T.links x) :
    Sound root T' := by
  have hd := h.inDir he
  -- The name was the only one.
  have hnot : ¬ T'.Linked c := by
    intro hl
    obtain ⟨d', k', he'⟩ := hl
    obtain ⟨hold, hne⟩ := hs.old he'
    have hd' : d' = d := (h.up hold hc).1.symm.trans (h.up he hc).1
    subst hd'
    exact hne ⟨rfl, h.once hold he hc⟩
  apply h.shrink (by rw [hs.kind, h.rootDir])
  · intro x hx _
    exact hs.up x (by rw [← hs.kind, hx])
  · intro d' k' x he'
    exact ⟨(hs.old he').1, hs.kind _, hs.kind _⟩
  · intro x hx
    rw [hs.kind] at hx
    have hxc : x ≠ c := by
      intro hxc
      rw [hxc, hc] at hx
      cases hx
    have hxd : x ≠ d := by
      intro hxd
      rw [hxd, hd] at hx
      cases hx
    rw [hlinks x hxc hxd (by rw [hx]; decide)]
    exact (Set.encard_le_encard fun p hp => (hs.old hp).1).trans (h.leaf hx)
  · intro x hx
    rw [hs.kind] at hx
    by_cases hxc : x = c
    · subst hxc
      have hown : T.own root x = 1 := own_pos (.inr ⟨d, k, he⟩)
      have hzero : T'.own root x = 0 := own_neg fun hor => hor.elim (h.up he hc).2 hnot
      have heq := h.dir hx
      rw [hself, hzero, hs.subdirs_ne hdc.symm, zero_add]
      rw [hown, add_comm] at heq
      have := sub_one_eq (x := 0) (by rw [heq, zero_add])
      rwa [zero_add] at this
    · have hown : T'.own root x = T.own root x := own_congr (hs.linked_iff_cut he hxc)
      by_cases hxd : x = d
      · subst hxd
        have hmem : k ∈ T.subdirs x := ⟨c, he, hc⟩
        rw [habove, hown, hs.subdirs_erase]
        apply sub_one_eq
        rw [Set.encard_sdiff_singleton_add_one hmem]
        exact h.dir hx
      · rw [hlinks x hxc hxd (by rw [hx]; decide), hown, hs.subdirs_ne hxd]
        exact h.dir hx

/-- A node without links is given back, with its entries. -/
theorem release (h : Sound root T) (hc : T.kind c ≠ .free) (h0 : T.links c = 0)
    (hfree : T'.kind c = .free) (hkind : ∀ x ≠ c, T'.kind x = T.kind x)
    (hup : ∀ x ≠ c, T.kind x = .dir → T'.up x = T.up x) (hnone : ∀ k, T'.entry c k = none)
    (hentry : ∀ d ≠ c, ∀ k, T'.entry d k = T.entry d k)
    (hlinks : ∀ x ≠ c, T.kind x ≠ .free → T'.links x = T.links x) : Sound root T' := by
  obtain ⟨hnot, hroot, hempty⟩ := h.no_links hc h0
  have hold : ∀ {d k x}, T'.entry d k = some x → T.entry d k = some x ∧ d ≠ c ∧ x ≠ c := by
    intro d k x he
    have hd : d ≠ c := by
      intro hd
      rw [hd, hnone] at he
      cases he
    rw [hentry d hd] at he
    exact ⟨he, hd, fun hx => hnot ⟨d, k, hx ▸ he⟩⟩
  have hne : ∀ {x}, T'.kind x ≠ .free → x ≠ c := by
    intro x hx he
    exact hx (he ▸ hfree)
  apply h.shrink (by rw [hkind root hroot.symm, h.rootDir])
  · intro x hx _
    have hxc := hne (x := x) (by rw [hx]; decide)
    exact hup x hxc (by rw [← hkind x hxc, hx])
  · intro d k x he
    obtain ⟨he, hd, hx⟩ := hold he
    exact ⟨he, hkind d hd, hkind x hx⟩
  · intro x hx
    have hxc := hne (x := x) (by rw [hx]; decide)
    rw [hkind x hxc] at hx
    rw [hlinks x hxc (by rw [hx]; decide)]
    exact (Set.encard_le_encard fun p hp => (hold hp).1).trans (h.leaf hx)
  · intro x hx
    have hxc := hne (x := x) (by rw [hx]; decide)
    rw [hkind x hxc] at hx
    have hsub : T'.subdirs x = T.subdirs x := by
      ext k
      constructor
      · intro hm
        obtain ⟨y, he, hy⟩ := hm
        obtain ⟨he, -, hyc⟩ := hold he
        exact ⟨y, he, by rw [← hkind y hyc, hy]⟩
      · intro hm
        obtain ⟨y, he, hy⟩ := hm
        have hyc : y ≠ c := fun hyc => hnot ⟨x, k, hyc ▸ he⟩
        exact ⟨y, by rw [hentry x hxc, he], by rw [hkind y hyc, hy]⟩
    -- What names a directory is not `c`: there is no directory in `c`.
    have hown : T'.own root x = T.own root x := by
      apply own_congr
      constructor
      · intro hl
        obtain ⟨d, k, he⟩ := hl
        exact ⟨d, k, (hold he).1⟩
      · intro hl
        obtain ⟨d, k, he⟩ := hl
        have hd : d ≠ c := by
          intro hd
          subst hd
          have : k ∈ T.subdirs d := ⟨x, he, hx⟩
          rw [hempty] at this
          exact this
        exact ⟨d, k, by rw [hentry d hd, he]⟩
    rw [hsub, hown, hlinks x hxc (by rw [hx]; decide)]
    exact h.dir hx

end Sound

end NameTree

end Kit
