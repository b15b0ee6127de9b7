import Xv6Labs.Sys.ListedCalls

/-! What the calls on names let any process see through its paths. -/
namespace Xv6Labs.Sys
open Kit Fs

namespace Listings
variable {L L' : Listings} {d d0 i : Nat} {m : Name} {path : Str}

/-- `L'` lists all that `L` does. -/
def Le (L L' : Listings) : Prop := ∀ d m i, L d m = some i → L' d m = some i

theorem Le.refl (L : Listings) : L.Le L := fun _ _ _ h => h

theorem Le.walk (h : L.Le L') (es : List Str) : L.walk d es = some i → L'.walk d es = some i := by
  induction es generalizing d with
  | nil => exact id
  | cons e es ih =>
    intro hw
    unfold Listings.walk at hw ⊢
    cases he : L d (.of e) with
    | none =>
      rw [he] at hw
      cases hw
    | some j =>
      rw [he] at hw
      rw [h d _ j he]
      exact ih hw

theorem walk_append (es : List Str) (e : Str) :
    L.walk d (es ++ [e]) = (L.walk d es).bind fun j => L j (.of e) := by
  induction es generalizing d with
  | nil =>
    rw [List.nil_append, Listings.walk, Listings.walk, Option.bind_some]
    cases L d (.of e) with
    | none => rfl
    | some j => rfl
  | cons e' es ih =>
    rw [List.cons_append, Listings.walk, Listings.walk]
    cases L d (.of e') with
    | none => rfl
    | some j => exact ih

/-- A path does not change when none of its steps does. -/
theorem walk_congr (es : List Str)
    (h : ∀ es1 e es2 x, es = es1 ++ e :: es2 → L.walk d es1 = some x → L' x (.of e) = L x (.of e)) :
    L'.walk d es = L.walk d es := by
  induction es generalizing d with
  | nil => rfl
  | cons e es ih =>
    rw [Listings.walk, Listings.walk, h [] e es d rfl rfl]
    cases hj : L d (.of e) with
    | none => rfl
    | some j =>
      apply ih
      intro es1 e' es2 x hes hw
      apply h (e :: es1) e' es2 x
      · rw [hes, List.cons_append]
      · rw [Listings.walk, hj]
        exact hw

/-- A path leads where its last name does. -/
theorem Ends.walk (h : L.Ends d0 path d m) : L.walk d0 (elements path) = L d m := by
  obtain ⟨es, e, hes, hw, rfl⟩ := h.last
  rw [hes, walk_append, hw]
  rfl

/-- So it does when the directories before the last name are still there. -/
theorem Ends.walk_le (h : L.Ends d0 path d m) (hle : L.Le L') :
    L'.walk d0 (elements path) = L' d m := by
  obtain ⟨es, e, hes, hw, rfl⟩ := h.last
  rw [hes, walk_append, hle.walk es hw]
  rfl

/-- When names have gone, it leads there or nowhere. -/
theorem Ends.walk_ge (h : L.Ends d0 path d m) (hle : L'.Le L) (hm : L' d m = none) :
    L'.walk d0 (elements path) = none := by
  obtain ⟨es, e, hes, hw, rfl⟩ := h.last
  rw [hes, walk_append]
  cases hw' : L'.walk d0 es with
  | none => rfl
  | some j =>
    rw [hle.walk es hw'] at hw
    cases hw
    exact hm

theorem Fresh.not_isDir (h : L.Fresh i) : ¬ L.IsDir i := by
  intro hd
  unfold IsDir at hd
  rw [h.empty] at hd
  cases hd

theorem le_enter (hm : L d m = none) : L.Le (L.enter d m i) := by
  intro x m' j hj
  unfold enter
  by_cases hx : x = d
  · subst hx
    rw [Function.update_self, Function.update_of_ne, hj]
    rintro rfl
    rw [hm] at hj
    cases hj
  · rw [Function.update_of_ne hx, hj]

theorem le_mkdots (hi : L.Fresh i) : L.Le (L.mkdots i d) := by
  intro x m' j hj
  unfold mkdots
  rw [Function.update_of_ne, hj]
  rintro rfl
  rw [hi.empty] at hj
  cases hj

theorem enter_self (L : Listings) (d : Nat) (m : Name) (i : Nat) : L.enter d m i d m = some i := by
  unfold enter
  rw [Function.update_self, Function.update_self]

theorem le_make (hm : L d m = none) (hi : L.Fresh i) (hd : L.IsDir d) (dir : Bool) :
    L.Le (L.make d m i dir) := by
  have hne : d ≠ i := by
    rintro rfl
    exact hi.not_isDir hd
  unfold make
  cases dir with
  | false => exact le_enter hm
  | true =>
    have hm' : L.mkdots i d d m = none := by
      unfold mkdots
      rw [Function.update_of_ne hne, hm]
    exact fun x m' j hj => le_enter hm' x m' j (le_mkdots hi x m' j hj)

end Listings

section
variable {L L' : Listings} {d0 : Str → Nat} {c : Call} {r : Int}

/-- Only `unlink` takes names away. -/
theorem Does.le (h : Does L d0 c r L') (hc : ∀ a, c ≠ .unlink a) : L.Le L' := by
  cases h with
  | failed | opened | rewritten => exact .refl L
  | made hmk he hm hi => exact Listings.le_make hm hi he.isDir _
  | linked ho hi he hm => exact Listings.le_enter hm
  | removed => exact absurd rfl (hc _)

/-- And it gives none. -/
theorem Does.ge {a : Option Arg} (h : Does L d0 (.unlink a) r L') : L'.Le L := by
  cases h with
  | failed => exact .refl L
  | made hmk => cases hmk
  | @removed path d i m L' he hdot hm hempty hL =>
    intro x m' j hj
    rcases hL x with heq | ⟨-, hfresh⟩
    · rw [heq] at hj
      unfold Listings.remove at hj
      by_cases hx : x = d
      · subst hx
        rw [Function.update_self] at hj
        by_cases hmm : m' = m
        · rw [hmm, Function.update_self] at hj
          cases hj
        · rwa [Function.update_of_ne hmm] at hj
      · rwa [Function.update_of_ne hx] at hj
    · rw [hfresh.empty] at hj
      cases hj

theorem Makes.path_eq {path path' : Str} {dir dir' : Bool} (h : Makes c r path dir)
    (h' : Makes c r path' dir') : path' = path := by
  cases h with
  | «open» | mkdir | mknod | symlink =>
    cases h'
    rfl

theorem Does.of_failed (h : Does L d0 c r L') (hr : r = -1)
    (hc : ∀ a omode, c ≠ .open a omode) : L' = L := by
  cases h with
  | failed | opened | rewritten => rfl
  | made hmk =>
    cases hmk with
    | «open» => exact absurd rfl (hc _ _)
    | mkdir | mknod | symlink => exact absurd hr (by decide)
  | linked | removed => exact absurd hr (by decide)

theorem Does.of_unlink {a : Arg} (h : Does L d0 (.unlink (some a)) r L') (hr : r = 0) :
    L.walk (d0 a.str) (elements a.str) ≠ none ∧ L'.walk (d0 a.str) (elements a.str) = none := by
  have hge := h.ge
  cases h with
  | failed => exact absurd hr (by decide)
  | made hmk => cases hmk
  | @removed path d i m L' he hdot hm hempty hL =>
    constructor
    · rw [he.walk, hm]
      exact Option.some_ne_none i
    · apply he.walk_ge hge
      rcases hL d with heq | ⟨-, hfresh⟩
      · rw [heq, Listings.remove, Function.update_self, Function.update_self]
      · exact hfresh.empty m

/-- The other entries of a directory stay as long as it does. -/
theorem Does.of_spared {a : Arg} {es : List Str} {e e' : Str} {d x : Nat}
    (h : Does L d0 (.unlink (some a)) r L') (hr : r = 0) (hes : elements a.str = es ++ [e])
    (hw : L.walk (d0 a.str) es = some d) (hx : L'.IsDir x) (hne : ¬ (x = d ∧ namecmp e' e = 0)) :
    L' x (.of e') = L x (.of e') := by
  cases h with
  | failed => exact absurd hr (by decide)
  | made hmk => cases hmk
  | @removed path d' i m L' he hdot hm hempty hL =>
    obtain ⟨es1, e1, hes1, hw1, rfl⟩ := he.last
    obtain ⟨rfl, he1⟩ := List.append_inj' (hes.symm.trans hes1) rfl
    cases he1
    cases hw.symm.trans hw1
    rcases hL x with heq | ⟨-, hfresh⟩
    · rw [heq, Listings.remove]
      by_cases hxd : x = d
      · subst hxd
        rw [Function.update_self, Function.update_of_ne]
        exact fun hn => hne ⟨rfl, Name.of_eq.mp hn⟩
      · rw [Function.update_of_ne hxd]
    · exact absurd hx hfresh.not_isDir

theorem Does.of_link {a b : Arg} (h : Does L d0 (.link (some a) (some b)) r L') (hr : r = 0) :
    L.walk (d0 b.str) (elements b.str) = none ∧ ∃ i,
      L'.walk (d0 a.str) (elements a.str) = some i ∧
      L'.walk (d0 b.str) (elements b.str) = some i := by
  have hle := h.le fun _ hc => by cases hc
  cases h with
  | failed => exact absurd hr (by decide)
  | made hmk => cases hmk
  | @linked old new d i m ho hi he hm =>
    refine ⟨he.walk.trans hm, i, hle.walk _ ho, ?_⟩
    rw [he.walk_le hle, Listings.enter_self]

/-- The new inode is where its path leads. -/
theorem Listings.Ends.walk_make {path : Str} {d d0 i : Nat} {m : Name} {dir : Bool}
    (he : L.Ends d0 path d m) (hm : L d m = none) (hi : L.Fresh i) :
    (L.make d m i dir).walk d0 (elements path) = some i := by
  rw [he.walk_le (Listings.le_make hm hi he.isDir dir), Listings.make, Listings.enter_self]

theorem Does.of_makes {path : Str} {dir : Bool} (h : Does L d0 c r L') (hc : Makes c r path dir)
    (hr : 0 ≤ r) : L'.walk (d0 path) (elements path) ≠ none := by
  cases h with
  | failed => exact absurd hr (by decide)
  | opened _ hn =>
    cases hc
    exact hn
  | rewritten hn =>
    cases hc
    rw [hn]
    exact Option.some_ne_none _
  | made hmk he hm hi =>
    rw [hmk.path_eq hc, he.walk_make hm hi]
    exact Option.some_ne_none _
  | linked | removed => cases hc

/-- `mkdir` and `mknod` take no inode that has a name. -/
theorem Does.of_new {path : Str} {dir : Bool} (h : Does L d0 c r L') (hc : Makes c r path dir)
    (hopen : ∀ a omode, c ≠ .open a omode) (hlink : ∀ a b, c ≠ .symlink a b) (hr : r = 0) :
    L.walk (d0 path) (elements path) = none ∧ ∃ i,
      L'.walk (d0 path) (elements path) = some i ∧ L.Fresh i := by
  cases h with
  | failed => exact absurd hr (by decide)
  | opened => exact absurd rfl (hopen _ _)
  | rewritten => exact absurd rfl (hlink _ _)
  | @made _ _ path' dir d i m hmk he hm hi =>
    rw [hmk.path_eq hc]
    exact ⟨he.walk.trans hm, i, he.walk_make hm hi, hi⟩
  | linked | removed => cases hc

theorem Does.of_open {a : Arg} {omode : UInt32} (h : Does L d0 (.open (some a) omode) r L')
    (ho : omode &&& oCreate = 0) (hr : 0 ≤ r) : L.walk (d0 a.str) (elements a.str) ≠ none := by
  cases h with
  | failed => exact absurd hr (by decide)
  | opened _ hn => exact hn
  | made hmk =>
    cases hmk with
    | «open» hc => exact absurd ho hc

/-- Only `..` may lead to a fresh inode. -/
theorem Listings.Fresh.walk_ne {i d : Nat} {es : List Str} {e : Str} (h : L.Fresh i)
    (he : namecmp e dotdot ≠ 0) : L.walk d (es ++ [e]) ≠ some i := by
  rw [Listings.walk_append]
  cases L.walk d es with
  | none => exact fun hn => by cases hn
  | some j => exact h.unnamed j (.of e) fun hn => he (Name.of_eq.mp hn)

end

/-- The inode that `path` names for process `q`. -/
def State.sees (s : State) (q : Nat) (path : Str) : Option Nat := (s.sched q).names path

/-- What can be seen through paths when the call `c` of process `p` has returned `r`. -/
structure Seen (s : State) (p : Nat) (c : Call) (r : Int) (s' : State) : Prop where
  /-- No call but `unlink` takes a name away, or gives it to another inode. -/
  kept : (∀ a, c ≠ .unlink a) → ∀ q path i, s.sees q path = some i → s'.sees q path = some i
  shrunk : ∀ a, c = .unlink a → ∀ q path i, s'.sees q path = some i → s.sees q path = some i
  /-- A call that fails goes unnoticed; `open` may have created the file before it failed. -/
  failed : r = -1 → (∀ a omode, c ≠ .open a omode) → ∀ q path, s'.sees q path = s.sees q path
  unlinked : ∀ a, c = .unlink (some a) → r = 0 → s.sees p a.str ≠ none ∧ s'.sees p a.str = none
  /-- The other paths are spared, but for those through a directory that is gone. -/
  spared : ∀ a es e d, c = .unlink (some a) → r = 0 → elements a.str = es ++ [e] →
    walk s.node ((s.sched p).start a.str) es = some d → ∀ q path,
      (∀ es1 e1 es2 x, elements path = es1 ++ e1 :: es2 →
        walk s.node ((s.sched q).start path) es1 = some x →
          (s'.node x).type = tDir ∧ ¬ (x = d ∧ namecmp e1 e = 0)) →
      s'.sees q path = s.sees q path
  linked : ∀ a b, c = .link (some a) (some b) → r = 0 → s.sees p b.str = none ∧
    ∃ i, s'.sees p a.str = some i ∧ s'.sees p b.str = some i
  opened : ∀ a omode, c = .open (some a) omode → omode &&& oCreate = 0 → 0 ≤ r →
    s.sees p a.str ≠ none
  made : ∀ path dir, Makes c r path dir → 0 ≤ r → s'.sees p path ≠ none
  /-- `mkdir` and `mknod` give the name to an inode that no path led to, but for the `..` of a
  directory that was removed. -/
  new : ∀ path dir, Makes c r path dir → (∀ a omode, c ≠ .open a omode) →
    (∀ a b, c ≠ .symlink a b) → r = 0 → s.sees p path = none ∧ ∃ i, s'.sees p path = some i ∧
      ∀ q old es e, elements old = es ++ [e] → namecmp e dotdot ≠ 0 → s.sees q old ≠ some i

section
variable {s s' t : State} {L : Listings} {c : Call} {r : Int} {p : Nat}

theorem Listed.sees (hl : Listed s.node L) (h : Sound s) (q : Nat) (path : Str) :
    s.sees q path = L.walk (startAt (s.proc q).cwd path) (elements path) :=
  hl.walk h.shape (elements path) _

theorem Effect.seen (he : Effect (s.sched p) L c r s') (h : Sound s) (h' : Sound s')
    (hl : Listed s.node L) : Seen s p c r s' := by
  obtain ⟨L', hdoes, hl', hcwd⟩ := he
  have hold := hl.sees h
  have hnew : ∀ q path, s'.sees q path = L'.walk (startAt (s.proc q).cwd path) (elements path) := by
    intro q path
    have hq : (s'.proc q).cwd = (s.proc q).cwd := hcwd q
    rw [hl'.sees h', hq]
  have hdoes : Does L (startAt (s.proc p).cwd) c r L' := hdoes
  refine ⟨?kept, ?shrunk, ?failed, ?unlinked, ?spared, ?linked, ?opened, ?made, ?new⟩
  case kept =>
    intro hc q path i hi
    rw [hold] at hi
    rw [hnew]
    exact (hdoes.le hc).walk _ hi
  case shrunk =>
    rintro a rfl q path i hi
    rw [hnew] at hi
    rw [hold]
    exact hdoes.ge.walk _ hi
  case failed =>
    intro hr hc q path
    rw [hnew, hold, hdoes.of_failed hr hc]
  case unlinked =>
    rintro a rfl hr
    rw [hnew, hold]
    exact hdoes.of_unlink hr
  case spared =>
    rintro a es e d rfl hr hes hw q path hstep
    rw [hl.walk h.shape] at hw
    rw [hnew, hold]
    apply Listings.walk_congr
    intro es1 e1 es2 x hes1 hw1
    rw [← hl.walk h.shape] at hw1
    obtain ⟨hx, hne⟩ := hstep es1 e1 es2 x hes1 hw1
    exact hdoes.of_spared hr hes hw ((hl'.isDir h'.shape).mpr hx) hne
  case linked =>
    rintro a b rfl hr
    rw [hnew, hnew, hold]
    exact hdoes.of_link hr
  case opened =>
    rintro a omode rfl ho hr
    rw [hold]
    exact hdoes.of_open ho hr
  case made =>
    intro path dir hc hr
    rw [hnew]
    exact hdoes.of_makes hc hr
  case new =>
    intro path dir hc hopen hlink hr
    obtain ⟨hnone, i, hi, hfresh⟩ := hdoes.of_new hc hopen hlink hr
    refine ⟨(hold p path).trans hnone, i, (hnew p path).trans hi, ?_⟩
    intro q old es e hes hne
    rw [hold, hes]
    exact hfresh.walk_ne hne

/-- After any harmless calls of any processes, one at a time, each call shows in the paths as it
should: what it has made, linked or removed is there or gone for its process, no path leads
elsewhere, and only `unlink` takes paths away. -/
theorem paths_seen {tr : List (Nat × Call × Int)} (h : Sound s) (hl : Listed s.node L)
    (hr : Run Returns s tr t) (hs : Returns t (p, c, r) s') : Seen t p c r s' := by
  have hinv : Sound t ∧ ∃ L', Listed t.node L' := by
    refine hr.invariant (P := fun t => Sound t ∧ ∃ L', Listed t.node L') ⟨h, L, hl⟩ ?_
    rintro u a v ⟨hu, L1, hl1⟩ hstep
    obtain ⟨L2, -, hl2, -⟩ := hstep.effect hu hl1
    exact ⟨hstep.sound hu, L2, hl2⟩
  obtain ⟨ht, L', hl'⟩ := hinv
  exact (hs.effect ht hl').seen ht (hs.sound ht) hl'

end

theorem paths_seen_mkdir : ∃ s, Returns newFs (0, .mkdir (some nameD), 0) s ∧
    newFs.sees 0 nameD.str = none ∧ ∃ i, s.sees 0 nameD.str = some i := by
  have hs : Returns newFs (0, .mkdir (some nameD), 0) _ := ⟨rfl, trivial⟩
  have hseen := paths_seen newFs_sound newFs_listed .nil hs
  obtain ⟨hnone, i, hi, -⟩ :=
    hseen.new _ _ .mkdir (fun _ _ hc => by cases hc) (fun _ _ hc => by cases hc) rfl
  exact ⟨_, hs, hnone, i, hi⟩

end Xv6Labs.Sys
