import Xv6Labs.Sys.Tree

/-! What `create` makes of the inodes, exit by exit. -/
namespace Xv6Labs.Sys
open Kit Fs

/-- The content of a new directory `ip` in `dp`. -/
def dots (ip dp : Nat) : List UInt8 := Dirent.bytes ip dot ++ Dirent.bytes dp dotdot

/-- The inode that `create` makes. -/
def newNode (dp ip : Nat) (type major minor : Int16) : Node :=
  ⟨type, major, minor, 1, if type = tDir then dots ip dp else []⟩

/-- The inodes after `create` has put the new inode `ip` in entry `k` of `dp`. -/
def created (nd : Nat → Node) (dp k ip : Nat) (name : Str) (type major minor : Int16) :
    Nat → Node :=
  Function.update (Function.update nd ip (newNode dp ip type major minor)) dp
    { (nd dp).write (16*k) (Dirent.bytes ip name) with
      nlink := if type = tDir then (nd dp).nlink + 1 else (nd dp).nlink }

theorem tDir_ne_zero : tDir ≠ 0 := by decide

section
variable {s0 s s' : State} {nd : Nat → Node} {hs ls : List Nat} {n ip dp : Nat} {name : Str}
  {type major minor : Int16}

theorem dots_length : (dots ip dp).length = 32 := by
  rw [dots, List.length_append, bytes_length, bytes_length]

theorem overwrite_dots : overwrite (Dirent.bytes ip dot) 16 (Dirent.bytes dp dotdot) = dots ip dp := by
  have h1 := bytes_length ip dot
  unfold overwrite dots
  rw [List.take_of_length_le (by rw [h1]), List.drop_eq_nil_of_le (by rw [h1]; omega),
    List.append_nil]

theorem slot_zero_dots (h : ip < 65536) : slot (dots ip dp) 0 = ⟨ip, strncpy dot⟩ := by
  rw [← ofBytes_bytes ip dot h, slot, dots, Nat.mul_zero, List.drop_zero]
  rw [List.take_append_of_le_length (by rw [bytes_length]),
    List.take_of_length_le (by rw [bytes_length])]

theorem slot_one_dots (h : dp < 65536) : slot (dots ip dp) 1 = ⟨dp, strncpy dotdot⟩ := by
  rw [← overwrite_dots, ← ofBytes_bytes dp dotdot h]
  exact slot_overwrite_self (k := 1) (by rw [bytes_length]) (bytes_length ..)

theorem dirOk_dots (hi : ip < 65536) (hd : dp < 65536) (h0 : dp ≠ 0) : DirOk (dots ip dp) ip where
  aligned := ⟨2, dots_length⟩
  two := by rw [dots_length]
  dotInum := by rw [slot_zero_dots hi]
  dotName := by
    rw [slot_zero_dots hi]
    rfl
  dotdotInum := by
    rw [slot_one_dots hd]
    exact h0
  dotdotName := by
    rw [slot_one_dots hd]
    rfl

/-- A change of content. -/
def Node.withData (x : Node) (data : List UInt8) : Node := { x with data := data }

theorem quiet_update {x : Node} (hq : Quiet s0.ref nd) (hx : x.nlink ≠ 0) :
    Quiet s0.ref (Function.update nd ip x) := by
  intro j hj
  by_cases he : j = ip
  · subst he
    rw [Function.update_self]
    exact .inl hx
  · rw [Function.update_of_ne he] at hj ⊢
    exact hq j hj

/-- With `.` alone in it a directory has its second slot for the next entry. -/
theorem vacant_dot (h0 : ip ≠ 0) (hi : ip < 65536) (hv : Vacant (Dirent.bytes ip dot) k) :
    k = 1 := by
  have hle := hv.le
  rw [bytes_length] at hle
  have hne : k ≠ 0 := by
    intro hk
    have hempty := hv.empty
    have hslot : slot (Dirent.bytes ip dot) 0 = ⟨ip, strncpy dot⟩ := by
      rw [← ofBytes_bytes ip dot hi, slot, Nat.mul_zero, List.drop_zero,
        List.take_of_length_le (by rw [bytes_length])]
    rw [hk, hslot] at hempty
    exact h0 hempty
  omega

/-- The entries of a new directory are both written, or `create` gives up. -/
theorem At.makeDots (h : At s0 nd hs ls n s) (hq : Quiet s0.ref nd) (hls : ∀ i ∈ ls, i ∈ hs)
    (hdata : (nd ip).data = []) (hn : (nd ip).nlink ≠ 0) (h0 : ip ≠ 0) (hi : ip < 65536) {r : Int}
    (hr : makeDots dp ip type s = .ok (r, s')) :
    (r = -1 ∧ ∃ n' data, At s0 (Function.update nd ip ((nd ip).withData data)) hs ls n' s') ∨
    (r = 0 ∧ At s0 (Function.update nd ip
      ((nd ip).withData (if type = tDir then dots ip dp else []))) hs ls
      (n + if type = tDir then 2 else 0) s') := by
  have hsame : (nd ip).withData [] = nd ip := by rw [Node.withData, ← hdata]
  unfold Sys.makeDots at hr
  split at hr
  · rename_i ht
    obtain ⟨r1, s1, h1, hr⟩ := bind_ok hr
    obtain ⟨-, hd1⟩ := h.dirlink hq hls h1
    cases hd1 with
    | inl hfail =>
      obtain ⟨rfl, -, n', hat⟩ := hfail
      rw [if_pos (by decide)] at hr
      obtain ⟨rfl, rfl⟩ := pure_ok hr
      refine .inl ⟨rfl, n', [], ?_⟩
      rwa [hsame, Function.update_eq_self]
    | inr hdone =>
      obtain ⟨rfl, -, k, hv, -, hat⟩ := hdone
      rw [if_neg (by decide)] at hr
      -- The directory was empty, so `.` is its first entry.
      have hk : k = 0 := by
        have := hv.le
        rw [hdata, List.length_nil] at this
        omega
      subst hk
      have hw : (nd ip).write (16*0) (Dirent.bytes ip dot) =
          (nd ip).withData (Dirent.bytes ip dot) := by
        rw [Node.write, hdata, Node.withData]
        simp [overwrite]
      rw [hw] at hat
      obtain ⟨-, hd2⟩ := hat.dirlink (quiet_update hq hn) hls hr
      cases hd2 with
      | inl hfail =>
        obtain ⟨rfl, -, n', hat⟩ := hfail
        exact .inl ⟨rfl, n', _, hat⟩
      | inr hdone =>
        obtain ⟨rfl, -, k, hv, -, hat⟩ := hdone
        rw [Function.update_self] at hv hat
        -- And `..` the second.
        have hk : k = 1 := vacant_dot h0 hi hv
        subst hk
        have hw : ((nd ip).withData (Dirent.bytes ip dot)).write (16*1) (Dirent.bytes dp dotdot) =
            (nd ip).withData (dots ip dp) := by
          rw [← overwrite_dots]
          rfl
        rw [hw, Function.update_idem] at hat
        rw [if_pos ht, if_pos ht]
        exact .inr ⟨rfl, hat⟩
  · rename_i ht
    obtain ⟨rfl, rfl⟩ := pure_ok hr
    rw [if_neg ht, if_neg ht, hsame, Function.update_eq_self]
    exact .inr ⟨rfl, h⟩

theorem makeDots_leaf (ht : type ≠ tDir) {r : Int} (hr : makeDots dp ip type s = .ok (r, s')) :
    r = 0 := by
  unfold Sys.makeDots at hr
  rw [if_neg ht] at hr
  exact (pure_ok hr).1

/-- A free inode as `iput` leaves it. -/
structure Node.Swept (x : Node) : Prop where
  type : x.type = 0
  nlink : x.nlink = 0
  data : x.data = []

/-- The new inode is freed again. -/
theorem At.createFail {y : Node} (h : At s0 (Function.update nd ip y) [ip, dp] [ip, dp] n s)
    (hq : Quiet s0.ref nd) (hne : ip ≠ dp) (hy : y.type ≠ 0) (href : s0.ref ip = 0)
    (hdp : (nd dp).type ≠ 0) {r : Option Nat} (hr : createFail dp ip s = .ok (r, s')) :
    r = none ∧ ∃ x : Node, x.Swept ∧ At s0 (Function.update nd ip x) [] [] n s' := by
  unfold Sys.createFail at hr
  obtain ⟨_, s1, h1, hr⟩ := bind_ok hr
  have hat := h.iupdate (by rw [Function.update_self]; exact hy) h1
  rw [Function.update_self, Function.update_idem] at hat
  obtain ⟨_, s2, h2, hr⟩ := bind_ok hr
  have hnot : ip ∉ [dp] := by simpa using hne
  have hat := hat.iunlockput_free hnot (by rw [Function.update_self])
    (by rw [href, List.count_eq_zero.mpr hnot]) h2
  rw [Function.update_idem, Function.update_self] at hat
  obtain ⟨_, s3, h3, hr⟩ := bind_ok hr
  obtain ⟨rfl, rfl⟩ := pure_ok hr
  refine ⟨rfl, _, ?_, hat.iunlockput List.not_mem_nil ?_ h3⟩
  · exact ⟨rfl, rfl, rfl⟩
  · rw [Function.update_of_ne hne.symm]
    exact hq.held hdp

/-- `create` for a name that is free: the new inode has its entry, or is freed again. -/
theorem At.createNew (h : At s0 (Function.update nd ip (.fresh type)) [ip, dp] [dp] n s)
    (hq : Quiet s0.ref nd) (hip : (nd ip).type = 0) (hdp : (nd dp).type = tDir)
    (href : s0.ref ip = 0) (h0 : ip ≠ 0) (hi : ip < 65536) (ht : type ≠ 0)
    (hmd : type = tDir → (nd dp).nlink ≠ -1) {r : Option Nat}
    (hr : createNew dp ip name type major minor s = .ok (r, s')) :
    (r = none ∧ (type ≠ tDir → find (nd dp).data name = none → ∀ k, Vacant (nd dp).data k →
        fits (nd dp).data.length (s0.room n) (16*k) < 16) ∧
      ∃ n' x, x.Swept ∧ At s0 (Function.update nd ip x) [] [] n' s') ∨
    (r = some ip ∧ ∃ k, Vacant (nd dp).data k ∧
      (type ≠ tDir → 16 ≤ fits (nd dp).data.length (s0.room n) (16*k)) ∧
      At s0 (created nd dp k ip name type major minor) [ip] [ip]
        (n + if type = tDir then 3 else 1) s') := by
  have hne : ip ≠ dp := by
    intro he
    rw [he, hdp] at hip
    exact absurd hip (by decide)
  have hdp0 : (nd dp).type ≠ 0 := by
    rw [hdp]
    decide
  have hls : ∀ j ∈ [ip, dp], j ∈ [ip, dp] := fun _ hj => hj
  have hone : (1 : Int16) ≠ 0 := by decide
  unfold Sys.createNew at hr
  obtain ⟨_, s1, h1, hr⟩ := bind_ok hr
  obtain ⟨hat, -, -⟩ := h.ilock h1
  obtain ⟨_, s2, h2, hr⟩ := bind_ok hr
  have hat := hat.iupdate (by rw [Function.update_self]; exact ht) h2
  rw [Function.update_self, Function.update_idem] at hat
  obtain ⟨r1, s3, h3, hr⟩ := bind_ok hr
  have hdots := hat.makeDots (quiet_update hq hone) hls (by rw [Function.update_self]; rfl)
    (by rw [Function.update_self]; exact hone) h0 hi h3
  rw [Function.update_self] at hdots
  cases hdots with
  | inl hfail =>
    obtain ⟨rfl, n', data, hat⟩ := hfail
    rw [Function.update_idem] at hat
    rw [if_pos (by decide)] at hr
    obtain ⟨rfl, x, hx, hend⟩ := hat.createFail hq hne ht href hdp0 hr
    refine .inl ⟨rfl, ?_, n', x, hx, hend⟩
    -- Only a directory has entries that may fail to be written.
    intro htd
    exact absurd (makeDots_leaf htd h3) (by decide)
  | inr hdone =>
    obtain ⟨rfl, hat⟩ := hdone
    rw [Function.update_idem] at hat
    rw [if_neg (by decide)] at hr
    obtain ⟨r2, s4, h4, hr⟩ := bind_ok hr
    obtain ⟨-, hentry⟩ := hat.dirlink (quiet_update hq hone) hls h4
    rw [Function.update_of_ne hne.symm] at hentry
    have hroom : type ≠ tDir → n + (if type = tDir then 2 else 0) = n := by
      intro htd
      rw [if_neg htd, Nat.add_zero]
    cases hentry with
    | inl hfail =>
      obtain ⟨rfl, hfull, n', hat⟩ := hfail
      rw [if_pos (by decide)] at hr
      obtain ⟨rfl, x, hx, hend⟩ := hat.createFail hq hne ht href hdp0 hr
      refine .inl ⟨rfl, ?_, n', x, hx, hend⟩
      intro htd hfind k hv
      have := hfull k hfind hv
      rwa [hroom htd] at this
    | inr hdone =>
      obtain ⟨rfl, -, k, hv, hfit, hat⟩ := hdone
      rw [if_neg (by decide)] at hr
      obtain ⟨_, s5, h5, hr⟩ := bind_ok hr
      obtain ⟨_, s6, h6, hr⟩ := bind_ok hr
      obtain ⟨rfl, rfl⟩ := pure_ok hr
      have hparent : At s0 (created nd dp k ip name type major minor) [ip, dp] [ip, dp]
          (n + if type = tDir then 3 else 1) s5 := by
        have hcount : n + (if type = tDir then 2 else 0) + 1 = n + if type = tDir then 3 else 1 := by
          split <;> rfl
        rw [hcount] at hat
        exact hat.iupdate_nlink (· + 1) hdp0 h5
      refine .inr ⟨rfl, k, hv, fun htd => by rwa [hroom htd] at hfit, ?_⟩
      apply ((hparent.perm (List.Perm.swap ..)).permLocks (List.Perm.swap ..)).iunlockput _ _ h6
      · simpa using hne.symm
      · unfold created
        rw [Function.update_self]
        dsimp only
        split
        · rename_i htd
          left
          intro hz
          exact hmd htd (by rw [← Int16.add_sub_cancel (nd dp).nlink 1, hz]; rfl)
        · exact hq.held hdp0

/-- The inodes that are in use are the same, and no other is. -/
structure Same (nd nd' : Nat → Node) : Prop where
  used : ∀ i, (nd i).type ≠ 0 → nd' i = nd i
  free : ∀ i, (nd i).type = 0 → (nd' i).type = 0

theorem Same.refl (nd : Nat → Node) : Same nd nd := ⟨fun _ _ => rfl, fun _ h => h⟩

theorem Same.update {x : Node} (hi : (nd ip).type = 0) (hx : x.type = 0) :
    Same nd (Function.update nd ip x) where
  used j hj := by
    rw [Function.update_of_ne]
    intro he
    exact hj (he ▸ hi)
  free j hj := by
    by_cases he : j = ip
    · rw [he, Function.update_self, hx]
    · rw [Function.update_of_ne he, hj]

/-- A path names nothing, and its last element would be an entry of `dp`. -/
structure Missing (s0 : State) (nd : Nat → Node) (path : Str) (dp : Nat) (name : Str) : Prop where
  last : ∃ es, elements path = es ++ [name] ∧ walk nd (s0.start path) es = some dp
  dir : (nd dp).type = tDir
  absent : find (nd dp).data name = none

theorem Missing.walk {path : Str} (h : Missing s0 nd path dp name) :
    walk nd (s0.start path) (elements path) = none := by
  obtain ⟨es, hes, hw⟩ := h.last
  rw [hes, walk_append, hw, Option.bind_some, Sys.walk, if_neg (not_not.mpr h.dir), h.absent]

/-- The inodes are as before: those in use, and the free ones, with neither links nor content. -/
structure Undone (nd nd' : Nat → Node) : Prop extends Same nd nd' where
  swept : ∀ i, (nd i).Swept → (nd' i).Swept

theorem Undone.refl (nd : Nat → Node) : Undone nd nd := ⟨.refl nd, fun _ h => h⟩

theorem Undone.update {x : Node} (hi : (nd ip).type = 0) (hx : x.Swept) :
    Undone nd (Function.update nd ip x) where
  toSame := .update hi hx.type
  swept j hj := by
    by_cases he : j = ip
    · rw [he, Function.update_self]
      exact hx
    · rw [Function.update_of_ne he]
      exact hj

/-- `create` for `type` returns an existing inode of type `found`. -/
def Accepts (type found : Int16) : Prop :=
  type = tSymlink ∨ type = tFile ∧ (found = tFile ∨ found = tDevice)

/-- No inode is free. -/
def NoInode (s0 : State) (nd : Nat → Node) : Prop :=
  ∀ i, 0 < i → i < s0.ninodes → (nd i).type ≠ 0

/-- Why `create` fails and leaves the inodes `nd'`, where the next `writei` is the `n`-th. -/
structure Refused (s0 : State) (nd : Nat → Node) (n : Nat) (path : Str) (type : Int16)
    (nd' : Nat → Node) : Prop where
  named : ∀ ip, walk nd (s0.start path) (elements path) = some ip →
    nd' = nd ∧ (elements path = [] ∨ ¬ Accepts type (nd ip).type)
  missing : type ≠ tDir → ∀ dp name k, Missing s0 nd path dp name → Vacant (nd dp).data k →
    NoInode s0 nd ∨ fits (nd dp).data.length (s0.room n) (16*k) < 16

/-- A path without a parent names nothing, or has no elements. -/
theorem NoParent.walk {es : List Str} {j : Nat} (h : NoParent nd ip es)
    (hw : walk nd ip es = some j) : es = [] := by
  cases List.eq_nil_or_concat es with
  | inl hnil => exact hnil
  | inr hcons =>
    obtain ⟨es', name, rfl⟩ := hcons
    rw [List.concat_eq_append] at h hw
    rw [walk_append] at hw
    obtain ⟨d, hd, hstep⟩ := Option.bind_eq_some_iff.mp hw
    have hno := h es' name d rfl hd
    rw [Sys.walk, if_pos hno] at hstep
    cases hstep

theorem Missing.unique {path name' : Str} {dp' : Nat} (h : Missing s0 nd path dp name)
    (h' : Missing s0 nd path dp' name') : dp' = dp ∧ name' = name := by
  obtain ⟨es, hes, hw⟩ := h.last
  obtain ⟨es', hes', hw'⟩ := h'.last
  rw [hes] at hes'
  obtain ⟨rfl, hname⟩ := List.append_inj' hes' rfl
  rw [hw] at hw'
  cases hname
  cases hw'
  exact ⟨rfl, rfl⟩

/-- `create` fails and leaves the inodes alone, or returns the inode that the path names, or puts
a new one in the parent; the inode it returns is locked. -/
theorem At.create (h : At s0 nd [] [] n s) (hq : Quiet s0.ref nd)
    (hheld : ∀ i, 0 < s0.ref i → (nd i).type ≠ 0) (hcount : s0.ninodes ≤ 65536)
    (hmd : type = tDir → ∀ dp ip, (nd dp).type = tDir → (nd ip).type = 0 → 0 < ip →
      ip < s0.ninodes → (nd dp).nlink ≠ -1)
    (ht : type ≠ 0) {path : Str} {r : Option Nat}
    (hr : create path type major minor s = .ok (r, s')) :
    (r = none ∧ ∃ n' nd', Undone nd nd' ∧ Refused s0 nd n path type nd' ∧
      At s0 nd' [] [] n' s') ∨
    (∃ ip, r = some ip ∧ walk nd (s0.start path) (elements path) = some ip ∧
      (nd ip).type ≠ 0 ∧ elements path ≠ [] ∧ Accepts type (nd ip).type ∧
      At s0 nd [ip] [ip] n s') ∨
    (∃ ip dp name k, r = some ip ∧ Missing s0 nd path dp name ∧ (nd ip).type = 0 ∧ 0 < ip ∧
      ip < s0.ninodes ∧ Vacant (nd dp).data k ∧
      (type ≠ tDir → 16 ≤ fits (nd dp).data.length (s0.room n) (16*k)) ∧
      At s0 (created nd dp k ip name type major minor) [ip] [ip]
        (n + if type = tDir then 3 else 1) s') := by
  unfold Sys.create at hr
  obtain ⟨x, s1, h1, hr⟩ := bind_ok hr
  cases h.nameiparent hq h1 with
  | inl hnone =>
    obtain ⟨rfl, hno, hat⟩ := hnone
    obtain ⟨rfl, rfl⟩ := pure_ok hr
    refine .inl ⟨rfl, n, nd, .refl nd, ⟨?_, ?_⟩, hat⟩
    · intro ip hw
      exact ⟨rfl, .inl (hno.walk hw)⟩
    · intro _ dp name k hm _
      obtain ⟨es, hes, hw⟩ := hm.last
      exact absurd hm.dir (hno es name dp hes hw)
  | inr hsome =>
    obtain ⟨dp, name, es, rfl, hat, hdp, hes, hwalk⟩ := hsome
    have hdp0 : (nd dp).type ≠ 0 := by
      rw [hdp]
      decide
    have hnil : elements path ≠ [] := by simp [hes]
    dsimp only at hr
    obtain ⟨_, s2, h2, hr⟩ := bind_ok hr
    obtain ⟨hat, -, -⟩ := hat.ilock h2
    obtain ⟨y, s3, h3, hr⟩ := bind_ok hr
    cases (hat.dirlookup h3).2 with
    | inr hfound =>
      obtain ⟨k, rfl, hfind, hat⟩ := hfound
      dsimp only at hr
      have hw : walk nd (s0.start path) (elements path) = some (slot (nd dp).data k).inum := by
        rw [hes, walk_append, hwalk, Option.bind_some, walk, if_neg (not_not.mpr hdp), hfind]
        rfl
      obtain ⟨_, s4, h4, hr⟩ := bind_ok hr
      have hat := (hat.perm (List.Perm.swap ..)).iunlockput List.not_mem_nil (hq.held hdp0) h4
      obtain ⟨_, s5, h5, hr⟩ := bind_ok hr
      obtain ⟨hat, -, hip⟩ := hat.ilock h5
      rw [hat.inode] at hr
      split at hr
      · rename_i hkind
        obtain ⟨rfl, rfl⟩ := pure_ok hr
        exact .inr (.inl ⟨_, rfl, hw, hip, hnil, hkind, hat⟩)
      · rename_i hkind
        obtain ⟨_, s6, h6, hr⟩ := bind_ok hr
        obtain ⟨rfl, rfl⟩ := pure_ok hr
        refine .inl ⟨rfl, n, nd, .refl nd, ⟨?_, ?_⟩,
          hat.iunlockput List.not_mem_nil (hq.held hip) h6⟩
        · intro ip hw'
          rw [hw] at hw'
          cases hw'
          exact ⟨rfl, .inr hkind⟩
        · intro _ dp' name' k' hm _
          have hno := hm.walk
          rw [hw] at hno
          cases hno
    | inl habsent =>
      obtain ⟨rfl, hfind, -, hat⟩ := habsent
      dsimp only at hr
      have hm : Missing s0 nd path dp name := ⟨⟨es, hes, hwalk⟩, hdp, hfind⟩
      obtain ⟨z, s4, h4, hr⟩ := bind_ok hr
      cases hat.ialloc ht h4 with
      | inl hfull =>
        obtain ⟨rfl, hfull, hat⟩ := hfull
        dsimp only at hr
        obtain ⟨_, s5, h5, hr⟩ := bind_ok hr
        obtain ⟨rfl, rfl⟩ := pure_ok hr
        refine .inl ⟨rfl, n, nd, .refl nd, ⟨?_, fun _ _ _ _ _ _ => .inl hfull⟩,
          hat.iunlockput List.not_mem_nil (hq.held hdp0) h5⟩
        intro ip hw
        rw [hm.walk] at hw
        cases hw
      | inr hnew =>
        obtain ⟨ip, rfl, h0, hi, hip, hat⟩ := hnew
        dsimp only at hr
        have href : s0.ref ip = 0 := by
          by_contra hpos
          exact hheld ip (Nat.pos_of_ne_zero hpos) hip
        cases hat.createNew hq hip hdp href (by omega) (by omega) ht
          (fun htd => hmd htd dp ip hdp hip h0 hi) hr with
        | inl hfail =>
          obtain ⟨rfl, hroom, n', x, hx, hat⟩ := hfail
          refine .inl ⟨rfl, n', _, .update hip hx, ⟨?_, ?_⟩, hat⟩
          · intro ip hw
            rw [hm.walk] at hw
            cases hw
          · intro htd dp' name' k hm' hv
            obtain ⟨rfl, rfl⟩ := hm.unique hm'
            exact .inr (hroom htd hfind k hv)
        | inr hdone =>
          obtain ⟨rfl, k, hv, hfit, hat⟩ := hdone
          exact .inr (.inr ⟨ip, dp, name, k, rfl, hm, hip, h0, hi, hv, hfit, hat⟩)

/-- A new directory has room for its link in the parent. -/
theorem Shape.nlink_room {N : Nat} {ref : Nat → Nat} (h : Shape N ref nd) {dp ip : Nat}
    (hdp : (nd dp).type = tDir) (hip : (nd ip).type = 0) (h0 : 0 < ip) (hi : ip < N) :
    (nd dp).nlink ≠ -1 := by
  have hdp0 : (nd dp).type ≠ 0 := by
    rw [hdp]
    decide
  have hne : dp ≠ ip := fun he => hdp0 (he ▸ hip)
  have hcount := h.count
  have hd := h.range dp hdp0
  have hsh1 : Shape N ref (Function.update nd ip ⟨tDir, 0, 0, 0, dots ip dp⟩) := by
    apply h.alloc hip h0 hi
    · exact tDir_ne_zero
    · rfl
    · exact fun _ => dirOk_dots (by omega) (by omega) (by omega)
    · intro k hk _
      exact slot_past (by rw [dots_length]; omega)
  have := hsh1.nlink_dir (d := dp) (i := ip) (by rw [Function.update_of_ne hne, hdp])
    (by rw [Function.update_self]; exact tDir_ne_zero) (by rw [Function.update_self])
  rwa [Function.update_of_ne hne] at this

end

end Xv6Labs.Sys
