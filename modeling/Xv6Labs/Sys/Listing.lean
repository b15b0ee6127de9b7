import Xv6Labs.Kit.Slots
import Xv6Labs.Sys.Atomic

/-! The name space as a map: each directory lists an inode under each of its names. This is what
the calls of `kernel/sysfile.c` are for; the entries on the disk hold it. -/
namespace Xv6Labs.Sys
open Kit Fs

theorem key_key (n : Nat) (p : List UInt8) : key n (key n p) = key n p := by
  induction n generalizing p with
  | zero => rfl
  | succ n ih =>
    by_cases h : p.headD 0 = 0
    · have hnil : key (n+1) p = [] := by rw [key, if_pos h]
      rw [hnil]
      rfl
    · have hcons : key (n+1) p = p.headD 0 :: key n p.tail := by rw [key, if_neg h]
      rw [hcons, key, List.headD_cons, List.tail_cons, if_neg h, ih]

/-- A name as `namecmp` sees it: cut at its NUL, and to `DIRSIZ` characters. -/
structure Name where
  str : List UInt8
  cut : key dirsiz str = str
  deriving DecidableEq

def Name.of (e : Str) : Name := ⟨key dirsiz e, key_key ..⟩

theorem Name.of_eq {a b : Str} : Name.of a = .of b ↔ namecmp a b = 0 := by
  rw [namecmp, strncmp_eq_zero, Name.of, Name.of, Name.mk.injEq]

/-- What an entry says. -/
def Dirent.listed (de : Dirent) : Option (Name × Nat) :=
  if de.inum = 0 then none else some (.of de.name, de.inum)

def entries (data : List UInt8) (k : Nat) : Option (Name × Nat) := (slot data k).listed

/-- The inodes under the names of each directory. -/
abbrev Listings := Nat → Name → Option Nat

namespace Listings

def enter (L : Listings) (d : Nat) (m : Name) (i : Nat) : Listings :=
  Function.update L d (Function.update (L d) m (some i))

def remove (L : Listings) (d : Nat) (m : Name) : Listings :=
  Function.update L d (Function.update (L d) m none)

/-- The new directory `i` in `d`. -/
def mkdots (L : Listings) (i d : Nat) : Listings :=
  Function.update L i
    (Function.update (Function.update (fun _ => none) (.of dot) (some i)) (.of dotdot) (some d))

/-- Where the elements of a path lead from `d`. -/
def walk (L : Listings) : Nat → List Str → Option Nat
  | d, [] => some d
  | d, e :: es =>
    match L d (.of e) with
    | none => none
    | some i => walk L i es

def IsDir (L : Listings) (d : Nat) : Prop := L d (.of dot) = some d

/-- The last element of a path is the name `m` in the directory `d`. -/
structure Ends (L : Listings) (d0 : Nat) (path : Str) (d : Nat) (m : Name) : Prop where
  isDir : L.IsDir d
  last : ∃ es e, elements path = es ++ [e] ∧ L.walk d0 es = some d ∧ m = .of e

/-- An inode that is not in use. Only `..` may lead to it, from a directory that was removed. -/
structure Fresh (L : Listings) (i : Nat) : Prop where
  empty : ∀ m, L i m = none
  unnamed : ∀ d m, m ≠ .of dotdot → L d m ≠ some i

end Listings

/-- The directories among the inodes hold the names that `L` lists, each name once. -/
structure Listed (nd : Nat → Node) (L : Listings) : Prop where
  dir : ∀ d, (nd d).type = tDir → Stores (entries (nd d).data) (L d)
  other : ∀ d, (nd d).type ≠ tDir → L d = fun _ => none

section Entries
variable {data bs : List UInt8} {k : Nat} {e : Str} {de : Dirent} {M : Name → Option Nat}

theorem listed_eq_some {m : Name} {i : Nat} :
    de.listed = some (m, i) ↔ de.inum = i ∧ i ≠ 0 ∧ m = .of de.name := by
  unfold Dirent.listed
  split
  · simp only [reduceCtorEq, false_iff]
    omega
  · rw [Option.some.injEq, Prod.mk.injEq]
    constructor
    · rintro ⟨rfl, rfl⟩
      exact ⟨rfl, ‹_›, rfl⟩
    · rintro ⟨rfl, -, rfl⟩
      exact ⟨rfl, rfl⟩

theorem matchesName_iff : matchesName e de = true ↔ de.listed = some (.of e, de.inum) := by
  rw [listed_eq_some, matchesName, decide_eq_true_eq, Name.of_eq]
  simp

/-- `dirlookup` reads the map. -/
theorem find_stores (h16 : 16 ∣ data.length) (h : Stores (entries data) M) :
    M (.of e) = (find data e).map fun k => (slot data k).inum := by
  cases hf : find data e with
  | none =>
    rw [Option.map_none, h.eq_none_iff]
    intro k i hk
    unfold find at hf
    rw [List.find?_range_eq_none] at hf
    have hi := listed_eq_some.mp hk
    by_cases hlt : k < data.length/16
    · have hno := hf k hlt
      rw [← hi.1] at hk
      rw [matchesName_iff.mpr hk] at hno
      exact Bool.false_ne_true hno
    · have := @slot_past data k (by omega)
      omega
  | some k =>
    unfold find at hf
    rw [List.find?_range_eq_some] at hf
    exact (h.maps _ _).mpr ⟨k, matchesName_iff.mp hf.1⟩

theorem entries_overwrite (hle : 16*k ≤ data.length) (hbs : bs.length = 16) :
    entries (overwrite data (16*k) bs) =
      Function.update (entries data) k (Dirent.ofBytes bs).listed := by
  funext j
  unfold entries
  by_cases hj : j = k
  · rw [hj, Function.update_self, slot_overwrite_self hle hbs]
  · rw [Function.update_of_ne hj, slot_overwrite_ne hle hbs hj]

theorem listed_bytes {i : Nat} (h0 : 0 < i) (hi : i < 65536) :
    (Dirent.ofBytes (Dirent.bytes i e)).listed = some (.of e, i) := by
  rw [ofBytes_bytes i e hi, listed_eq_some, Name.of_eq]
  exact ⟨rfl, by omega, namecmp_strncpy e⟩

theorem listed_zero : (Dirent.ofBytes (List.replicate 16 0)).listed = none := rfl

/-- `dirlink` enters a name. -/
theorem Stores.dirlink {i : Nat} (h : Stores (entries data) M) (hv : Vacant data k)
    (hf : find data e = none) (h0 : 0 < i) (hi : i < 65536) :
    Stores (entries (overwrite data (16*k) (Dirent.bytes i e)))
      (Function.update M (.of e) (some i)) := by
  rw [entries_overwrite hv.le (bytes_length ..), listed_bytes h0 hi]
  apply h.insert
  · rw [entries, Dirent.listed, if_pos hv.empty]
  · rw [find_stores hv.aligned h, hf]
    rfl

/-- An entry of zeros removes its name. -/
theorem Stores.clear (h : Stores (entries data) M) (hf : find data e = some k) :
    Stores (entries (overwrite data (16*k) (List.replicate 16 0)))
      (Function.update M (.of e) none) := by
  obtain ⟨hfit, h0, hname⟩ := find_some hf
  rw [entries_overwrite (by omega) List.length_replicate, listed_zero]
  exact h.erase (listed_eq_some.mpr ⟨rfl, h0, Name.of_eq.mpr hname⟩)

theorem stores_dots {i d : Nat} (h0 : 0 < i) (hi : i < 65536) (hd0 : 0 < d) (hd : d < 65536) :
    Stores (entries (dots i d))
      (Function.update (Function.update (fun _ => none) (.of dot) (some i)) (.of dotdot)
        (some d)) := by
  have hnil : Stores (entries []) (fun _ => none) := by
    have hnone : ∀ k, entries [] k = none := by
      intro k
      rw [entries, Dirent.listed, if_pos (slot_past (Nat.zero_le _))]
    refine ⟨fun hk => ?_, fun m i => ?_⟩
    · rw [hnone] at hk
      cases hk
    · simp [hnone]
  have hone : Stores (entries (Dirent.bytes i dot)) (Function.update (fun _ => none) (.of dot)
      (some i)) := by
    have hb : Dirent.bytes i dot = overwrite [] (16*0) (Dirent.bytes i dot) := by simp [overwrite]
    rw [hb, entries_overwrite (Nat.le_refl _) (bytes_length ..), listed_bytes h0 hi]
    refine hnil.insert ?_ rfl i
    rw [entries, Dirent.listed, if_pos (slot_past (Nat.zero_le _))]
  have hb : dots i d = overwrite (Dirent.bytes i dot) (16*1) (Dirent.bytes d dotdot) :=
    overwrite_dots.symm
  rw [hb, entries_overwrite (by rw [bytes_length]) (bytes_length ..), listed_bytes hd0 hd]
  refine hone.insert ?_ ?_ d
  · rw [entries, Dirent.listed, if_pos (slot_past (by rw [bytes_length]))]
  · rw [Function.update_of_ne]
    intro he
    exact absurd (Name.of_eq.mp he) (by decide)

end Entries

namespace Listed
variable {nd nd' : Nat → Node} {L : Listings} {d i k N : Nat} {e : Str} {ref : Nat → Nat}

theorem congr (h : Listed nd L) (ht : ∀ d, (nd' d).type = tDir ↔ (nd d).type = tDir)
    (hd : ∀ d, (nd d).type = tDir → (nd' d).data = (nd d).data) : Listed nd' L where
  dir d hdir := by
    have hold := (ht d).mp hdir
    rw [hd d hold]
    exact h.dir d hold
  other d hne := h.other d fun hdir => hne ((ht d).mpr hdir)

theorem same (h : Listed nd L) (hs : Same nd nd') : Listed nd' L := by
  apply h.congr
  · intro d
    by_cases h0 : (nd d).type = 0
    · rw [h0, hs.free d h0]
    · rw [hs.used d h0]
  · intro d hd
    rw [hs.used d (by rw [hd]; exact tDir_ne_zero)]

/-- One inode changes, and with it what it lists. -/
theorem set {x : Node} {M : Name → Option Nat} (h : Listed nd L)
    (hdir : x.type = tDir → Stores (entries x.data) M)
    (hother : x.type ≠ tDir → M = fun _ => none) :
    Listed (Function.update nd d x) (Function.update L d M) where
  dir j hj := by
    by_cases he : j = d
    · subst he
      rw [Function.update_self] at hj ⊢
      rw [Function.update_self]
      exact hdir hj
    · rw [Function.update_of_ne he] at hj ⊢
      rw [Function.update_of_ne he]
      exact h.dir j hj
  other j hj := by
    by_cases he : j = d
    · subst he
      rw [Function.update_self] at hj ⊢
      exact hother hj
    · rw [Function.update_of_ne he] at hj ⊢
      exact h.other j hj

/-- A lookup in a directory. -/
theorem find (h : Listed nd L) (hs : Shape N ref nd) (hd : (nd d).type = tDir) :
    L d (.of e) = (Sys.find (nd d).data e).map fun k => (slot (nd d).data k).inum :=
  find_stores (hs.dirs d hd).aligned (h.dir d hd)

theorem walk (h : Listed nd L) (hs : Shape N ref nd) (es : List Str) :
    ∀ d, Sys.walk nd d es = L.walk d es := by
  induction es with
  | nil => exact fun _ => rfl
  | cons e es ih =>
    intro d
    rw [Sys.walk, Listings.walk]
    by_cases hd : (nd d).type = tDir
    · rw [if_neg (not_not.mpr hd), h.find hs hd]
      cases Sys.find (nd d).data e with
      | none => rfl
      | some k => exact ih _
    · rw [if_pos hd, h.other d hd]

theorem isDir (h : Listed nd L) (hs : Shape N ref nd) : L.IsDir d ↔ (nd d).type = tDir := by
  unfold Listings.IsDir
  constructor
  · intro hdot
    by_contra hd
    rw [h.other d hd] at hdot
    cases hdot
  · intro hd
    have hok := hs.dirs d hd
    have h0 := (hs.range d (by rw [hd]; exact tDir_ne_zero)).1
    refine ((h.dir d hd).maps _ _).mpr ⟨0, listed_eq_some.mpr ⟨hok.dotInum, by omega, ?_⟩⟩
    exact Name.of_eq.mpr hok.dotName

/-- A free inode lists nothing and is listed nowhere. -/
theorem fresh (h : Listed nd L) (hs : Shape N ref nd) (hi : (nd i).type = 0) : L.Fresh i where
  empty m := by
    rw [h.other i (by rw [hi]; exact tDir_ne_zero.symm)]
  unnamed d m hm hl := by
    by_cases hd : (nd d).type = tDir
    · obtain ⟨k, hk⟩ := ((h.dir d hd).maps m i).mp hl
      obtain ⟨hinum, h0, hname⟩ := listed_eq_some.mp hk
      have hok := hs.dirs d hd
      match k with
      | 0 =>
        rw [hok.dotInum] at hinum
        rw [hinum, hi] at hd
        exact tDir_ne_zero hd.symm
      | 1 => exact hm (hname.trans (Name.of_eq.mpr hok.dotdotName).symm)
      | k+2 =>
        have hentry : (tree nd).entry d k = some i :=
          entry_eq_some.mpr ⟨hd, hinum, h0⟩
        exact hs.tree.alive hentry (kind_free.mpr hi)
    · rw [h.other d hd] at hl
      cases hl

/-- A directory without other entries lists `.` and `..`. -/
theorem only_dots (h : Listed nd L) (hs : Shape N ref nd)
    (hempty : (nd i).type = tDir → ∀ j, 2 ≤ j → (slot (nd i).data j).inum = 0) {m : Name}
    (hm : L i m ≠ none) : m = .of dot ∨ m = .of dotdot := by
  by_cases hd : (nd i).type = tDir
  · obtain ⟨x, hx⟩ := Option.ne_none_iff_exists'.mp hm
    obtain ⟨k, hk⟩ := ((h.dir i hd).maps m x).mp hx
    obtain ⟨hinum, h0, hname⟩ := listed_eq_some.mp hk
    have hok := hs.dirs i hd
    match k with
    | 0 => exact .inl (hname.trans (Name.of_eq.mpr hok.dotName).symm)
    | 1 => exact .inr (hname.trans (Name.of_eq.mpr hok.dotdotName).symm)
    | k+2 => exact absurd (hinum.symm.trans (hempty hd (k+2) (by omega))) h0
  · rw [h.other i hd] at hm
    exact absurd rfl hm

/-- An entry for `i` is set in `d`. -/
theorem relink {bs : List UInt8} {md mi : Int16} {M : Name → Option Nat} (h : Listed nd L)
    (hd : (nd d).type = tDir) (hM : Stores (entries (overwrite (nd d).data (16*k) bs)) M) :
    Listed (Sys.relink nd d k bs i md mi) (Function.update L d M) := by
  have hi : Listed (Function.update nd i { nd i with nlink := mi }) L := by
    apply h.congr
    · intro j
      by_cases he : j = i
      · rw [he, Function.update_self]
      · rw [Function.update_of_ne he]
    · intro j _
      by_cases he : j = i
      · rw [he, Function.update_self]
      · rw [Function.update_of_ne he]
  exact hi.set (fun _ => hM) fun hne => absurd hd hne

/-- An inode without links and references is freed, and its names with it. -/
theorem reap (h : Listed nd L) (ref : Nat → Nat) (hs : List Nat) (i : Nat) :
    ∃ L', Listed (Sys.reap ref hs i nd) L' ∧
      ∀ x, L' x = L x ∨ x = i ∧ (Sys.reap ref hs i nd i).type = 0 := by
  unfold Sys.reap
  split
  · refine ⟨Function.update L i fun _ => none, h.set (fun hd => ?_) fun _ => rfl, fun x => ?_⟩
    · exact absurd hd.symm tDir_ne_zero
    · by_cases he : x = i
      · refine .inr ⟨he, ?_⟩
        rw [Function.update_self]
        rfl
      · exact .inl (Function.update_of_ne he ..)
  · exact ⟨L, h, fun _ => .inl rfl⟩

end Listed

end Xv6Labs.Sys
