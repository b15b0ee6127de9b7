import Mathlib.Data.List.Count
import Xv6Labs.Kit.Exec
import Xv6Labs.Sys.Sysfile

/-! What a system call holds while it runs: the references and locks it has taken since its
start, and what it has made of the inodes. Each function of the inode layer is described once by
what it does to this. -/
namespace Xv6Labs.Sys
open Kit

/-- The entries of the inode table that the references `hs` have taken. -/
def newSlots (ref : Nat → Nat) : List Nat → Nat
  | [] => 0
  | i :: hs => newSlots ref hs + if ref i = 0 ∧ i ∉ hs then 1 else 0

theorem newSlots_perm {ref : Nat → Nat} {hs hs' : List Nat} (h : hs.Perm hs') :
    newSlots ref hs = newSlots ref hs' := by
  induction h with
  | nil => rfl
  | cons i hp ih => simp only [newSlots, ih, hp.mem_iff]
  | swap i j hs =>
    by_cases hij : i = j
    · rw [hij]
    · simp only [newSlots, List.mem_cons, hij, Ne.symm hij, false_or]
      omega
  | trans _ _ ih ih' => rw [ih, ih']

/-- The entry of `i` is taken by the references or was taken before. -/
theorem newSlots_hold (ref : Nat → Nat) (i : Nat) (hs : List Nat) :
    newSlots ref hs + (if ref i = 0 ∧ i ∉ hs then 1 else 0) =
      (if ref i = 0 then 1 else 0) + newSlots (Function.update ref i (ref i + 1)) hs := by
  induction hs with
  | nil => simp [newSlots]
  | cons j hs ih =>
    unfold newSlots
    by_cases hj : j = i
    · subst hj
      simp only [Function.update_self, List.mem_cons_self, not_true_eq_false, and_false, if_false,
        Nat.succ_ne_zero, false_and, Nat.add_zero]
      exact ih
    · simp only [Function.update_of_ne hj, List.mem_cons, Ne.symm hj, false_or]
      omega

namespace State
variable (s : State) (i : Nat)

theorem ref_hold : (s.hold i).ref = Function.update s.ref i (s.ref i + 1) := by
  unfold hold
  split
  · rename_i h0
    rw [h0]
    rfl
  · rfl

theorem inuse_hold : (s.hold i).inuse = s.inuse + if s.ref i = 0 then 1 else 0 := by
  unfold hold
  split
  · rfl
  · rfl

theorem hold_rest : (s.hold i).ninodes = s.ninodes ∧ (s.hold i).room = s.room ∧
    (s.hold i).ops = s.ops ∧ (s.hold i).ftable = s.ftable ∧ (s.hold i).proc = s.proc ∧
    (s.hold i).cur = s.cur := by
  unfold hold
  split
  · exact ⟨rfl, rfl, rfl, rfl, rfl, rfl⟩
  · exact ⟨rfl, rfl, rfl, rfl, rfl, rfl⟩

end State

/-- The state `s` of a call that started in `s0`, has made the inodes `nd`, holds the references
`hs` and the locks `ls`, and has called `writei` `n` times. -/
structure At (s0 : State) (nd : Nat → Node) (hs ls : List Nat) (n : Nat) (s : State) : Prop where
  ninodes : s.ninodes = s0.ninodes
  node : s.node = nd
  ref : ∀ i, s.ref i = s0.ref i + hs.count i
  inuse : s.inuse = s0.inuse + newSlots s0.ref hs
  valid : ∀ i, s.valid i = true → 0 < s.ref i ∧ (nd i).type ≠ 0
  locked : ∀ i, s.locked i = true ↔ i ∈ ls
  lockValid : ∀ i ∈ ls, s.valid i = true
  room : ∀ k, s.room k = s0.room (k+n)
  ops : s.ops = s0.ops
  ftable : s.ftable = s0.ftable
  proc : s.proc = s0.proc
  cur : s.cur = s0.cur

/-- No inode waits to be freed: each one in use has a link or a reference. -/
def Quiet (ref : Nat → Nat) (nd : Nat → Node) : Prop :=
  ∀ i, (nd i).type ≠ 0 → (nd i).nlink ≠ 0 ∨ 0 < ref i

/-- A state between system calls. -/
structure Idle (s : State) : Prop where
  valid : ∀ i, s.valid i = true → 0 < s.ref i ∧ (s.node i).type ≠ 0
  locked : ∀ i, s.locked i = false

section
variable {s0 s s' : State} {nd : Nat → Node} {hs hs' ls : List Nat} {n i : Nat} {r : Unit}

theorem Idle.at (h : Idle s) : At s s.node [] [] 0 s where
  ninodes := rfl
  node := rfl
  ref := by simp
  inuse := rfl
  valid := h.valid
  locked := by simp [h.locked]
  lockValid := by simp
  room := by simp
  ops := rfl
  ftable := rfl
  proc := rfl
  cur := rfl

namespace At

theorem perm (h : At s0 nd hs ls n s) (hp : hs.Perm hs') : At s0 nd hs' ls n s :=
  { h with
    ref := fun i => by rw [h.ref, hp.count_eq]
    inuse := by rw [h.inuse, newSlots_perm hp] }

theorem permLocks {ls' : List Nat} (h : At s0 nd hs ls n s) (hp : ls.Perm ls') :
    At s0 nd hs ls' n s :=
  { h with
    locked := fun i => by rw [h.locked, hp.mem_iff]
    lockValid := fun i hi => h.lockValid i (hp.mem_iff.mpr hi) }

theorem ref_zero_iff (h : At s0 nd hs ls n s) : s.ref i = 0 ↔ s0.ref i = 0 ∧ i ∉ hs := by
  rw [h.ref, Nat.add_eq_zero_iff, List.count_eq_zero]

theorem hold (h : At s0 nd hs ls n s) (i : Nat) : At s0 nd (i :: hs) ls n (s.hold i) := by
  have hz := h.ref_zero_iff (i := i)
  by_cases h0 : s.ref i = 0
  · have heq : s.hold i = { (s.setRef i 1).setValid i false with inuse := s.inuse + 1 } := by
      rw [State.hold, if_pos h0]
    rw [heq]
    exact {
      ninodes := h.ninodes
      node := h.node
      ref := by
        intro j
        by_cases hj : j = i
        · subst hj
          have := h.ref j
          simp only [State.setRef, State.setValid, Function.update_self, List.count_cons_self]
          omega
        · simp [State.setRef, State.setValid, hj, h.ref j, Ne.symm hj]
      inuse := by
        change s.inuse + 1 = _
        rw [newSlots, if_pos (hz.mp h0), h.inuse, Nat.add_assoc]
      valid := by
        intro j hv
        by_cases hj : j = i
        · simp [State.setRef, State.setValid, hj] at hv
        · simp only [State.setRef, State.setValid, Function.update_of_ne hj] at hv ⊢
          exact h.valid j hv
      locked := h.locked
      lockValid := by
        intro j hj
        have hv := h.lockValid j hj
        have hne : j ≠ i := by
          intro he
          have := (h.valid j hv).1
          rw [he] at this
          omega
        simpa [State.setRef, State.setValid, hne] using hv
      room := h.room
      ops := h.ops
      ftable := h.ftable
      proc := h.proc
      cur := h.cur }
  · have heq : s.hold i = s.setRef i (s.ref i + 1) := by rw [State.hold, if_neg h0]
    rw [heq]
    have href : ∀ j, (s.setRef i (s.ref i + 1)).ref j = s0.ref j + (i :: hs).count j := by
      intro j
      by_cases hj : j = i
      · subst hj
        simp only [State.setRef, Function.update_self, List.count_cons_self, h.ref j]
        omega
      · simp [State.setRef, hj, h.ref j, Ne.symm hj]
    exact { h with
      ref := href
      inuse := by
        change s.inuse = _
        rw [newSlots, if_neg (fun hp => h0 (hz.mpr hp)), h.inuse, Nat.add_zero]
      valid := by
        intro j hv
        have := h.valid j hv
        refine ⟨?_, this.2⟩
        have := h.ref j
        rw [href, List.count_cons]
        omega }

/-- A reference that the call has taken may as well be one that it started with. -/
theorem hold_iff : At (s0.hold i) nd hs ls n s ↔ At s0 nd (i :: hs) ls n s := by
  have href : ∀ j, s0.ref j + (i :: hs).count j = (s0.hold i).ref j + hs.count j := by
    intro j
    rw [State.ref_hold, List.count_cons]
    by_cases hj : j = i
    · subst hj
      simp only [beq_self_eq_true, if_true, Function.update_self]
      omega
    · rw [Function.update_of_ne hj]
      simp [Ne.symm hj]
  have hinuse : s0.inuse + newSlots s0.ref (i :: hs) =
      (s0.hold i).inuse + newSlots (s0.hold i).ref hs := by
    have hslots := newSlots_hold s0.ref i hs
    rw [State.ref_hold, State.inuse_hold, newSlots]
    omega
  obtain ⟨hN, hroom, hops, hft, hproc, hcur⟩ := s0.hold_rest i
  constructor
  · intro h
    exact ⟨hN ▸ h.ninodes, h.node, fun j => (h.ref j).trans (href j).symm, h.inuse.trans hinuse.symm,
      h.valid, h.locked, h.lockValid, hroom ▸ h.room, hops ▸ h.ops, hft ▸ h.ftable, hproc ▸ h.proc,
      hcur ▸ h.cur⟩
  · intro h
    exact ⟨hN ▸ h.ninodes, h.node, fun j => (h.ref j).trans (href j), h.inuse.trans hinuse,
      h.valid, h.locked, h.lockValid, hroom ▸ h.room, hops ▸ h.ops, hft ▸ h.ftable, hproc ▸ h.proc,
      hcur ▸ h.cur⟩

theorem drop (h : At s0 nd (i :: hs) ls n s) (hi : i ∉ ls ∨ 0 < s0.ref i + hs.count i) :
    At s0 nd hs ls n (s.drop i) := by
  have hi' : i ∉ ls ∨ s.ref i ≠ 1 := by
    cases hi with
    | inl h' => exact .inl h'
    | inr h' =>
      right
      rw [h.ref, List.count_cons_self]
      omega
  have href : ∀ j, (s.drop i).ref j = s0.ref j + hs.count j := by
    intro j
    have := h.ref j
    rw [List.count_cons] at this
    unfold State.drop
    by_cases hj : j = i
    · subst hj
      simp only [beq_self_eq_true, if_true] at this
      split
      · simp only [State.setRef, State.setValid, Function.update_self]
        omega
      · simp only [State.setRef, Function.update_self]
        omega
    · simp only [beq_iff_eq, Ne.symm hj, if_false, Nat.add_zero] at this
      split
      · simp [State.setRef, State.setValid, hj, this]
      · simp [State.setRef, hj, this]
  have hone : s.ref i = 1 ↔ s0.ref i = 0 ∧ i ∉ hs := by
    have := h.ref i
    rw [List.count_cons_self] at this
    rw [← List.count_eq_zero]
    omega
  by_cases h1 : s.ref i = 1
  · have heq : s.drop i = { (s.setRef i 0).setValid i false with inuse := s.inuse - 1 } := by
      rw [State.drop, if_pos h1]
    rw [heq] at href ⊢
    exact {
      ninodes := h.ninodes
      node := h.node
      ref := href
      inuse := by
        have := h.inuse
        rw [newSlots, if_pos (hone.mp h1)] at this
        change s.inuse - 1 = _
        omega
      valid := by
        intro j hv
        by_cases hj : j = i
        · simp [State.setRef, State.setValid, hj] at hv
        · simp only [State.setRef, State.setValid, Function.update_of_ne hj] at hv ⊢
          exact h.valid j hv
      locked := h.locked
      lockValid := by
        intro j hj
        have hv := h.lockValid j hj
        have hne : j ≠ i := by
          intro he
          exact hi'.elim (fun h' => h' (he ▸ hj)) fun h' => h' h1
        simpa [State.setRef, State.setValid, hne] using hv
      room := h.room
      ops := h.ops
      ftable := h.ftable
      proc := h.proc
      cur := h.cur }
  · have heq : s.drop i = s.setRef i (s.ref i - 1) := by rw [State.drop, if_neg h1]
    rw [heq] at href ⊢
    exact { h with
      ref := href
      inuse := by
        have := h.inuse
        rw [newSlots, if_neg (fun hp => h1 (hone.mpr hp))] at this
        exact this
      valid := by
        intro j hv
        have hj := h.valid j hv
        refine ⟨?_, hj.2⟩
        by_cases he : j = i
        · subst he
          simp only [State.setRef, Function.update_self]
          omega
        · simpa [State.setRef, he] using hj.1 }

theorem setNode (h : At s0 nd hs ls n s) (x : Node) (hx : x.type ≠ 0 ∨ s.valid i = false) :
    At s0 (Function.update nd i x) hs ls n (s.setNode i x) :=
  { h with
    node := by rw [State.setNode, h.node]
    valid := by
      intro j hv
      have hj := h.valid j hv
      refine ⟨hj.1, ?_⟩
      by_cases he : j = i
      · subst he
        rw [Function.update_self]
        cases hx with
        | inl hx => exact hx
        | inr hx =>
          change s.valid j = true at hv
          rw [hx] at hv
          cases hv
      · rw [Function.update_of_ne he]
        exact hj.2 }

theorem iget (h : At s0 nd hs ls n s) (hr : iget i s = .ok (r, s')) :
    At s0 nd (i :: hs) ls n s' := by
  unfold Sys.iget at hr
  split at hr
  · cases hr
  · cases hr
    exact h.hold i

theorem idup (h : At s0 nd hs ls n s) (hr : idup i s = .ok (r, s')) :
    At s0 nd (i :: hs) ls n s' := by
  unfold Sys.idup at hr
  cases hr
  exact h.hold i

theorem setLocked (h : At s0 nd hs ls n s) (hv : s.valid i = true) :
    At s0 nd hs (i :: ls) n (s.setLocked i true) :=
  { h with
    locked := by
      intro j
      by_cases hj : j = i
      · simp [State.setLocked, hj]
      · simpa [State.setLocked, hj] using h.locked j
    lockValid := by
      intro j hj
      cases List.mem_cons.mp hj with
      | inl he => exact he ▸ hv
      | inr hm => exact h.lockValid j hm }

theorem setValid (h : At s0 nd hs ls n s) (hr : 0 < s.ref i) (ht : (nd i).type ≠ 0) :
    At s0 nd hs ls n (s.setValid i true) :=
  { h with
    valid := by
      intro j hv
      by_cases hj : j = i
      · subst hj
        exact ⟨hr, ht⟩
      · exact h.valid j (by simpa [State.setValid, hj] using hv)
    lockValid := by
      intro j hm
      by_cases hj : j = i
      · simp [State.setValid, hj]
      · simpa [State.setValid, hj] using h.lockValid j hm }

/-- A lock that is taken is new, and on an inode in use. -/
theorem ilock (h : At s0 nd hs ls n s) (hr : ilock i s = .ok (r, s')) :
    At s0 nd hs (i :: ls) n s' ∧ i ∉ ls ∧ (nd i).type ≠ 0 := by
  unfold Sys.ilock at hr
  split at hr
  · cases hr
  · rename_i href
    split at hr
    · cases hr
    · rename_i hfree
      have hnot : i ∉ ls := fun hm => hfree ((h.locked i).mpr hm)
      split at hr
      · rename_i hv
        cases hr
        exact ⟨h.setLocked hv, hnot, (h.valid i hv).2⟩
      · split at hr
        · cases hr
        · rename_i ht
          cases hr
          rw [h.node] at ht
          refine ⟨?_, hnot, ht⟩
          have := h.setValid (i := i) (by omega) ht
          exact this.setLocked (by simp [State.setValid])

theorem iunlock (h : At s0 nd hs (i :: ls) n s) (hi : i ∉ ls) (hr : iunlock i s = .ok (r, s')) :
    At s0 nd hs ls n s' ∧ s'.valid i = true := by
  unfold Sys.iunlock at hr
  split at hr
  · cases hr
  · cases hr
    refine ⟨{ h with locked := ?_, lockValid := ?_ }, h.lockValid i (List.mem_cons_self ..)⟩
    · intro j
      by_cases hj : j = i
      · simp [State.setLocked, hj, hi]
      · simpa [State.setLocked, hj] using h.locked j
    · intro j hj
      exact h.lockValid j (List.mem_cons_of_mem _ hj)

/-- `iput` frees nothing: the inode has a link, or other references, or is not in use. -/
theorem iput (h : At s0 nd (i :: hs) ls n s) (hi : i ∈ ls → i ∈ hs)
    (hk : (nd i).type ≠ 0 → (nd i).nlink ≠ 0 ∨ 0 < s0.ref i + hs.count i)
    (hr : iput i s = .ok (r, s')) : At s0 nd hs ls n s' := by
  unfold Sys.iput at hr
  split at hr
  · rename_i hfree
    have hv := h.valid i hfree.2.1
    have href := h.ref i
    rw [List.count_cons_self] at href
    cases hk hv.2 with
    | inl hn => exact absurd (h.node ▸ hfree.2.2) hn
    | inr hpos => omega
  · cases hr
    apply h.drop
    by_cases hm : i ∈ ls
    · right
      have := List.count_pos_iff.mpr (hi hm)
      omega
    · exact .inl hm

theorem iput_free (h : At s0 nd (i :: hs) ls n s) (hi : i ∉ ls) (hv : s.valid i = true)
    (hn : (nd i).nlink = 0) (h0 : s0.ref i + hs.count i = 0) (hr : Sys.iput i s = .ok (r, s')) :
    At s0 (Function.update nd i (nd i).freed) hs ls n s' := by
  have href := h.ref i
  rw [List.count_cons_self] at href
  unfold Sys.iput at hr
  rw [if_pos ⟨by omega, hv, by rw [h.node, hn]⟩] at hr
  cases hr
  -- The entry is invalid before the type goes, as seen after the last reference is dropped.
  have hd := h.drop (.inl hi)
  have hinv : (s.drop i).valid i = false := by
    rw [State.drop, if_pos (by omega)]
    simp [State.setValid]
  have heq : (s.setNode i (s.node i).freed).drop i = (s.drop i).setNode i (nd i).freed := by
    rw [h.node]
    change (if s.ref i = 1 then _ else _) = (if s.ref i = 1 then _ else _ : State).setNode _ _
    split
    · rfl
    · rfl
  rw [heq]
  exact hd.setNode _ (.inr hinv)

theorem iunlockput (h : At s0 nd (i :: hs) (i :: ls) n s) (hi : i ∉ ls)
    (hk : (nd i).nlink ≠ 0 ∨ 0 < s0.ref i + hs.count i) (hr : iunlockput i s = .ok (r, s')) :
    At s0 nd hs ls n s' := by
  obtain ⟨_, s1, h1, h2⟩ := bind_ok hr
  exact (h.iunlock hi h1).1.iput (fun hm => absurd hm hi) (fun _ => hk) h2

theorem iunlockput_free (h : At s0 nd (i :: hs) (i :: ls) n s) (hi : i ∉ ls)
    (hn : (nd i).nlink = 0) (h0 : s0.ref i + hs.count i = 0)
    (hr : Sys.iunlockput i s = .ok (r, s')) :
    At s0 (Function.update nd i (nd i).freed) hs ls n s' := by
  obtain ⟨_, s1, h1, h2⟩ := bind_ok hr
  obtain ⟨h', hv⟩ := h.iunlock hi h1
  exact h'.iput_free hi hv hn h0 h2

theorem iupdate (h : At s0 nd hs ls n s) {f : Node → Node} (hf : (f (nd i)).type ≠ 0)
    (hr : iupdate i f s = .ok (r, s')) : At s0 (Function.update nd i (f (nd i))) hs ls n s' := by
  unfold Sys.iupdate at hr
  cases hr
  rw [h.node]
  exact h.setNode _ (.inl hf)

/-- The link count of an inode just written is changed under a condition. -/
theorem iupdate_nlink {c : Prop} [Decidable c] {x : Node} (f : Int16 → Int16)
    (h : At s0 (Function.update nd i x) hs ls n s) (hx : x.type ≠ 0)
    (hr : onlyIf c (Sys.iupdate i fun y => { y with nlink := f y.nlink }) s = .ok (r, s')) :
    At s0 (Function.update nd i { x with nlink := if c then f x.nlink else x.nlink }) hs ls n
      s' := by
  unfold onlyIf at hr
  split at hr
  · next hc =>
    have hat := h.iupdate (by rw [Function.update_self]; exact hx) hr
    rw [Function.update_self, Function.update_idem] at hat
    rw [if_pos hc]
    exact hat
  · next hc =>
    obtain ⟨-, rfl⟩ := pure_ok hr
    rw [if_neg hc]
    exact h

theorem inode (h : At s0 nd hs ls n s) {α : Type} (f : Node → K α) :
    (inode i >>= f) s = f (nd i) s := by
  rw [← h.node]
  rfl

/-- `ialloc` takes a free inode that nobody holds. -/
theorem ialloc (h : At s0 nd hs ls n s) {type : Int16} (ht : type ≠ 0) {x : Option Nat}
    (hr : ialloc type s = .ok (x, s')) :
    (x = none ∧ (∀ i, 0 < i → i < s0.ninodes → (nd i).type ≠ 0) ∧ At s0 nd hs ls n s') ∨
    ∃ i, x = some i ∧ 0 < i ∧ i < s0.ninodes ∧ (nd i).type = 0 ∧
      At s0 (Function.update nd i (.fresh type)) (i :: hs) ls n s' := by
  unfold Sys.ialloc at hr
  cases hf : s.freeInum with
  | none =>
    rw [hf] at hr
    cases hr
    refine .inl ⟨rfl, ?_, h⟩
    intro i h0 hi ht
    have hmem : i ∈ (List.range (s.ninodes - 1)).map (· + 1) := by
      rw [h.ninodes, List.mem_map]
      exact ⟨i - 1, List.mem_range.mpr (by omega), by omega⟩
    have hno := List.find?_eq_none.mp hf i hmem
    rw [h.node] at hno
    exact hno (decide_eq_true ht)
  | some i =>
    rw [hf] at hr
    have hfound := List.find?_some hf
    have hmem := List.mem_of_find?_eq_some hf
    simp only [List.mem_map, List.mem_range, h.ninodes] at hmem
    obtain ⟨j, hj, rfl⟩ := hmem
    rw [h.node] at hfound
    simp only [decide_eq_true_eq] at hfound
    cases hg : Sys.iget (j+1) (s.setNode (j+1) (.fresh type)) with
    | error e =>
      simp only [hg, Except.map] at hr
      cases hr
    | ok p =>
      simp only [hg, Except.map] at hr
      cases hr
      refine .inr ⟨j+1, rfl, by omega, by omega, hfound, ?_⟩
      exact (h.setNode _ (.inl ht)).iget (r := ()) hg

end At

end

end Xv6Labs.Sys
