import Xv6Labs.Kit.Run
import Xv6Labs.Sys.Exits
import Xv6Labs.Sys.Open

/-! Runs of name-space calls by any processes, one call after the other, and the directory tree
along them. -/
namespace Xv6Labs.Sys
open Kit

inductive Call where
  | open (path : Option Arg) (omode : UInt32)
  | mkdir (path : Option Arg)
  | mknod (path : Option Arg) (major minor : Int32)
  | link (old new : Option Arg)
  | unlink (path : Option Arg)
  | symlink (target path : Option Arg)

def Call.exec : Call → K Int
  | .open path omode => sysOpen path omode
  | .mkdir path => sysMkdir path
  | .mknod path major minor => sysMknod path major minor
  | .link old new => sysLink old new
  | .unlink path => sysUnlink path
  | .symlink target path => sysSymlink target path

/-- The process that runs is `p`. -/
def State.sched (s : State) (p : Nat) : State := { s with cur := p }

/-- The process `a.1` makes the call `a.2`, and it returns before another call starts: the calls take
locks on the way, but between two locks of one call no other call is at work here. -/
def CallStep (s : State) (a : Nat × Call) (s' : State) : Prop :=
  ∃ r, a.2.exec (s.sched a.1) = .ok (r, s')

/-- Where the calls go wrong: a symlink over a directory, a symlink with no block left for its
target once its entry is there, and the link that brings the 16-bit count of an inode back to 0. -/
def Harmless (s : State) : Call → Prop
  | .link (some old) (some new) => ¬ Wraps s old new
  | .symlink (some target) (some path) => ¬ Smashes s target path ∧ ¬ Dangles s path.str
  | _ => True

def SafeStep (s : State) (a : Nat × Call) (s' : State) : Prop :=
  CallStep s a s' ∧ Harmless (s.sched a.1) a.2

/-- The directories that can be reached from the root. -/
inductive Reachable (nd : Nat → Node) : Nat → Prop
  | root : Reachable nd rootino
  | entry {d k : Nat} : Reachable nd d → (slot (nd d).data k).inum ≠ 0 →
      (nd (slot (nd d).data k).inum).type = tDir → Reachable nd (slot (nd d).data k).inum

/-- The tree that hangs from the root is in order. -/
structure TreeSound (s : State) : Prop where
  root : (s.node rootino).type = tDir ∧ (slot (s.node rootino).data 1).inum = rootino
  entries : ∀ d, Reachable s.node d → ∀ k, (slot (s.node d).data k).inum ≠ 0 →
    (slot (s.node d).data k).inum < s.ninodes ∧
      (s.node (slot (s.node d).data k).inum).type ≠ 0
  dot : ∀ d, Reachable s.node d →
    (slot (s.node d).data 0).inum = d ∧ namecmp dot (slot (s.node d).data 0).name = 0
  dotdot : ∀ d, Reachable s.node d → namecmp dotdot (slot (s.node d).data 1).name = 0
  parent : ∀ d, Reachable s.node d → ∀ k, 2 ≤ k → (slot (s.node d).data k).inum ≠ 0 →
    (s.node (slot (s.node d).data k).inum).type = tDir →
    (slot (s.node (slot (s.node d).data k).inum).data 1).inum = d

section
variable {s s' : State} {c : Call} {p : Nat} {r : Int}

/-- The state that a call leaves. -/
def Call.after (c : Call) (s : State) : State :=
  match c.exec s with
  | .ok (_, s') => s'
  | .error _ => s

theorem Call.exec_eq (h : (c.exec s).toOption.map Prod.fst = some r) :
    c.exec s = .ok (r, c.after s) := by
  obtain ⟨s', hs⟩ := ok_of_fst h
  rw [Call.after, hs]

/-- The directories reached from the root by their names. -/
inductive Named (nd : Nat → Node) : Nat → Prop
  | root : Named nd rootino
  | entry {d k c : Nat} : Named nd d → (tree nd).entry d k = some c → (nd c).type = tDir →
      Named nd c

theorem Named.dir (h : Sound s) {d : Nat} (hd : Named s.node d) : (s.node d).type = tDir := by
  cases hd with
  | root => exact kind_dir.mp h.shape.tree.rootDir
  | entry _ _ ht => exact ht

/-- `..` of a directory leads to one that is reached by names as well. -/
theorem Named.up (h : Sound s) {d : Nat} (hd : Named s.node d) :
    Named s.node (slot (s.node d).data 1).inum := by
  cases hd with
  | root =>
    have : (slot (s.node rootino).data 1).inum = rootino := h.shape.tree.rootUp
    rw [this]
    exact .root
  | entry hn he ht =>
    have := (h.shape.tree.up he (kind_dir.mpr ht)).1
    change (slot (s.node d).data 1).inum = _ at this
    rw [this]
    exact hn

theorem Reachable.named (h : Sound s) {d : Nat} (hd : Reachable s.node d) : Named s.node d := by
  induction hd with
  | root => exact .root
  | @entry d k _ hne ht ih =>
    have hdir := ih.dir h
    match k with
    | 0 =>
      rw [(h.shape.dirs d hdir).dotInum]
      exact ih
    | 1 => exact ih.up h
    | k+2 => exact ih.entry (entry_eq_some.mpr ⟨hdir, rfl, hne⟩) ht

theorem Sound.treeSound (h : Sound s) : TreeSound s where
  root := ⟨kind_dir.mp h.shape.tree.rootDir, h.shape.tree.rootUp⟩
  entries d hd k hne := by
    have hn := hd.named h
    have hdir := hn.dir h
    have halive : (s.node (slot (s.node d).data k).inum).type ≠ 0 := by
      match k with
      | 0 =>
        rw [(h.shape.dirs d hdir).dotInum, hdir]
        exact tDir_ne_zero
      | 1 =>
        rw [(hn.up h).dir h]
        exact tDir_ne_zero
      | k+2 =>
        have he : (tree s.node).entry d k = some (slot (s.node d).data (k+2)).inum :=
          entry_eq_some.mpr ⟨hdir, rfl, hne⟩
        exact fun h0 => h.shape.tree.alive he (kind_free.mpr h0)
    exact ⟨(h.shape.range _ halive).2, halive⟩
  dot d hd := by
    have hok := h.shape.dirs d ((hd.named h).dir h)
    exact ⟨hok.dotInum, hok.dotName⟩
  dotdot d hd := (h.shape.dirs d ((hd.named h).dir h)).dotdotName
  parent d hd k hk hne ht := by
    have hdir := (hd.named h).dir h
    have he : (tree s.node).entry d (k-2) = some (slot (s.node d).data k).inum :=
      entry_eq_some.mpr ⟨hdir, by rw [Nat.sub_add_cancel hk], hne⟩
    exact (h.shape.tree.up he (kind_dir.mpr ht)).1

theorem Sound.sched (h : Sound s) (p : Nat) : Sound (s.sched p) :=
  ⟨⟨h.idle.valid, h.idle.locked⟩, h.shape, h.quiet, h.files⟩

/-- A call keeps the inodes in order exactly when it is harmless. -/
theorem sound_step_iff {a : Nat × Call} (h : Sound s) (hs : CallStep s a s') :
    Sound s' ↔ Harmless (s.sched a.1) a.2 := by
  obtain ⟨r, hr⟩ := hs
  have h := h.sched a.1
  cases hc : a.2 with
  | «open» path omode =>
    rw [hc] at hr
    exact iff_of_true (h.sysOpen hr) trivial
  | mkdir path =>
    rw [hc] at hr
    exact iff_of_true ((h.makeNode tDir_ne_zero hr).sound h) trivial
  | mknod path major minor =>
    rw [hc] at hr
    have ht : tDevice ≠ 0 := by decide
    exact iff_of_true ((h.makeNode ht hr).sound h) trivial
  | link old new =>
    rw [hc] at hr
    match old, new with
    | some old, some new => exact h.sysLink_iff hr
    | none, _ =>
      obtain ⟨-, rfl⟩ := pure_ok hr
      exact iff_of_true h trivial
    | some _, none =>
      obtain ⟨-, rfl⟩ := pure_ok hr
      exact iff_of_true h trivial
  | unlink path =>
    rw [hc] at hr
    exact iff_of_true ((h.sysUnlink hr).sound h) trivial
  | symlink target path =>
    rw [hc] at hr
    match target, path with
    | some target, some path => exact h.sysSymlink_iff hr
    | none, _ =>
      obtain ⟨-, rfl⟩ := pure_ok hr
      exact iff_of_true h trivial
    | some _, none =>
      obtain ⟨-, rfl⟩ := pure_ok hr
      exact iff_of_true h trivial

theorem sound_run {tr : List (Nat × Call)} (h : Sound s) (hr : Run SafeStep s tr s') : Sound s' :=
  hr.invariant h fun _ _ _ h hs => (sound_step_iff h hs.1).mpr hs.2

/-- From inodes in order, every run of harmless name-space calls keeps the tree that hangs from
the root in order; after such a run the next call keeps the inodes in order only if it is harmless
too. -/
theorem tree_stays_sound {tr : List (Nat × Call)} (h : Sound s) (hr : Run SafeStep s tr s') :
    TreeSound s' ∧
      ∀ a t, CallStep s' a t → (Sound t ↔ Harmless (s'.sched a.1) a.2) :=
  ⟨(sound_run h hr).treeSound, fun _ _ hs => sound_step_iff (sound_run h hr) hs⟩

end

/-! A new file system: the root directory alone, which a process has as its working directory. -/

def newFs : State where
  ninodes := 200
  node i := if i = rootino then ⟨tDir, 0, 0, 1, dots 1 1⟩ else .fresh 0
  ref i := if i = rootino then 1 else 0
  valid _ := false
  inuse := 1
  locked _ := false
  room _ := 1
  ops := 0
  ftable _ := ⟨.none, 0, false, false, 0, 0, 0⟩
  proc _ := ⟨rootino, fun _ => none⟩
  cur := 0

theorem newFs_type {i : Nat} (h : (newFs.node i).type ≠ 0) : i = rootino := by
  by_contra hne
  rw [newFs] at h
  dsimp only at h
  rw [if_neg hne] at h
  exact h rfl

theorem newFs_entry (d k : Nat) : (tree newFs.node).entry d k = none := by
  cases he : (tree newFs.node).entry d k with
  | none => rfl
  | some c =>
    obtain ⟨hd, hc, hc0⟩ := entry_eq_some.mp he
    have hd1 := newFs_type (i := d) (by rw [hd]; exact tDir_ne_zero)
    subst hd1
    have hlen : (newFs.node rootino).data.length = 32 := dots_length
    rw [slot_past (by rw [hlen]; omega)] at hc
    exact absurd hc.symm hc0

theorem newFs_tree : (tree newFs.node).Sound rootino where
  rootDir := kind_dir.mpr rfl
  rootUp := rfl
  inDir he := by
    rw [newFs_entry] at he
    cases he
  alive he := by
    rw [newFs_entry] at he
    cases he
  up he := by
    rw [newFs_entry] at he
    cases he
  once he := by
    rw [newFs_entry] at he
    cases he
  leaf hc := by
    obtain ⟨h0, hd⟩ := kind_leaf.mp hc
    rw [newFs_type h0] at hd
    exact absurd rfl hd
  dir := by
    intro d hd
    have hd1 := newFs_type (i := d) (by rw [kind_dir.mp hd]; exact tDir_ne_zero)
    subst hd1
    have hsub : (tree newFs.node).subdirs rootino = ∅ := by
      ext k
      simp [NameTree.subdirs, newFs_entry]
    rw [hsub, NameTree.own_pos (.inl rfl), Set.encard_empty, add_zero]
    rfl

theorem newFs_sound : Sound newFs where
  idle := ⟨fun _ h => absurd h (by simp [newFs]), fun _ => rfl⟩
  shape := by
    refine ⟨by decide, ?_, newFs_tree, ?_, ?_⟩
    · intro i hi
      rw [newFs_type hi]
      decide
    · intro d hd
      rw [newFs_type (i := d) (by rw [hd]; exact tDir_ne_zero)]
      exact dirOk_dots (by decide) (by decide) (by decide)
    · intro i hi
      have hi1 : i = rootino := by
        by_contra hne
        simp [newFs, hne] at hi
      rw [hi1]
      exact tDir_ne_zero
  quiet := by
    intro i hi
    rw [newFs_type hi]
    exact .inr (by decide)
  files _ _ := rfl

/-- The paths `d`, `d/a`, `a`, `b` and `/.`, and the target `x`. -/
def nameD : Arg := ⟨[100], by decide, by decide⟩
def nameDa : Arg := ⟨[100, 47, 97], by decide, by decide⟩
def nameA : Arg := ⟨[97], by decide, by decide⟩
def nameB : Arg := ⟨[98], by decide, by decide⟩
def rootDot : Arg := ⟨[47, 46], by decide, by decide⟩
def nameX : Arg := ⟨[120], by decide, by decide⟩

/-- A directory, a link in it that another process makes, and a second name for the link. -/
def madeD : State := (Call.mkdir (some nameD)).after (newFs.sched 0)
def madeDa : State := (Call.symlink (some nameX) (some nameDa)).after (madeD.sched 1)
def linkedB : State := (Call.link (some nameDa) (some nameB)).after (madeDa.sched 0)

theorem madeD_returns : (Call.mkdir (some nameD)).exec (newFs.sched 0) = .ok (0, madeD) :=
  Call.exec_eq (by decide +kernel)

theorem madeDa_returns :
    (Call.symlink (some nameX) (some nameDa)).exec (madeD.sched 1) = .ok (0, madeDa) :=
  Call.exec_eq (by decide +kernel)

theorem linkedB_returns :
    (Call.link (some nameDa) (some nameB)).exec (madeDa.sched 0) = .ok (0, linkedB) :=
  Call.exec_eq (by decide +kernel)

theorem madeDa_harmless : Harmless (madeD.sched 1) (.symlink (some nameX) (some nameDa)) := by
  have hnew : (madeD.sched 1).names nameDa.str = none := by decide +kernel
  exact fresh_symlink hnew (by decide +kernel)

theorem linkedB_harmless : Harmless (madeDa.sched 0) (.link (some nameDa) (some nameB)) := by
  have hold : (madeDa.sched 0).names nameDa.str = some 3 := by decide +kernel
  exact not_wraps hold (by decide +kernel)

theorem tree_stays_sound_links :
    Run SafeStep newFs [(0, .mkdir (some nameD)), (1, .symlink (some nameX) (some nameDa)),
      (0, .link (some nameDa) (some nameB))] linkedB ∧
    (linkedB.names nameDa.str = some 3 ∧ linkedB.names nameB.str = some 3) ∧ TreeSound linkedB ∧
    ∃ t, CallStep linkedB (1, .symlink (some nameX) (some rootDot)) t ∧ ¬ Sound t := by
  have hs1 : SafeStep newFs (0, .mkdir (some nameD)) madeD := ⟨⟨0, madeD_returns⟩, trivial⟩
  have hs2 : SafeStep madeD (1, .symlink (some nameX) (some nameDa)) madeDa :=
    ⟨⟨0, madeDa_returns⟩, madeDa_harmless⟩
  have hs3 : SafeStep madeDa (0, .link (some nameDa) (some nameB)) linkedB :=
    ⟨⟨0, linkedB_returns⟩, linkedB_harmless⟩
  have hr := ((Run.single hs1).snoc hs2).snoc hs3
  have h4 : CallStep linkedB (1, .symlink (some nameX) (some rootDot)) _ :=
    ⟨0, Call.exec_eq (by decide +kernel)⟩
  obtain ⟨htree, hnext⟩ := tree_stays_sound newFs_sound hr
  refine ⟨hr, ⟨by decide +kernel, by decide +kernel⟩, htree, _, h4, ?_⟩
  rw [hnext _ _ h4]
  intro hsafe
  exact hsafe.1 ⟨rootino, by decide +kernel, by decide +kernel, by decide +kernel,
    by decide +kernel⟩

/-- `symlink("x", "/.")` writes its target over the entry `.` of the root. -/
theorem symlink_over_directory : Sound newFs ∧
    ∃ s, Run CallStep newFs [(0, .symlink (some nameX) (some rootDot))] s ∧ ¬ TreeSound s := by
  have hr : Run CallStep newFs [(0, .symlink (some nameX) (some rootDot))] _ :=
    Run.single ⟨0, rfl⟩
  refine ⟨newFs_sound, _, hr, ?_⟩
  intro h
  exact absurd (h.dot rootino .root).1 (by decide)

end Xv6Labs.Sys
