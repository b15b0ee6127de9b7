import Xv6Labs.Sys.Alike
import Xv6Labs.Sys.NameSpace

/-! Symbolic links: what `sys_symlink` stores, and where `sys_open` goes when it follows what is
stored. -/
namespace Xv6Labs.Sys
open Kit Fs

/-- `namei`, called inside a transaction, finds the inode `i`. -/
def Names (s : State) (path : Str) (i : Nat) : Prop :=
  ∃ s', namei path s.begun = .ok (some i, s')

def LinkTo (s : State) (i : Nat) (target : Arg) : Prop :=
  (s.node i).type = tSymlink ∧ target.stored <+: (s.node i).data

/-- The targets of the links that are met in turn when `p` is followed. -/
inductive Chain (s : State) : Str → List Arg → Prop
  | stop {p : Str} : (∀ i, Names s p i → (s.node i).type ≠ tSymlink) → Chain s p []
  | hop {p : Str} {i : Nat} {t : Arg} {ts : List Arg} : Names s p i → LinkTo s i t →
      Chain s t.str ts → Chain s p (t :: ts)

/-- What the buffer of `sys_open` holds after a link to `target` was met on the way from `path`:
the loop reads one byte of the target. -/
def hopPath (path target : Str) : Str :=
  match target with
  | [] => []
  | c :: _ => c :: path.tail

/-- The loop of `sys_open`, called with `path`, meets `k` links from the path `p` on. -/
inductive Meets (s : State) (path : Str) : Str → Nat → Prop
  | stop {p : Str} : (∀ i, Names s p i → (s.node i).type ≠ tSymlink) → Meets s path p 0
  | hop {p : Str} {i k : Nat} {t : Arg} : Names s p i → LinkTo s i t →
      Meets s path (hopPath path t.str) k → Meets s path p (k+1)

/-- The inode behind a descriptor. -/
def State.fdInode (s : State) (fd : Int) : Option Nat :=
  if fd < 0 then none else (s.myproc.ofile fd.toNat).map fun f => (s.ftable f).ip

/-- What a caller of `sys_open` sees: the value it returns and the inode that is open under it,
or the panic. -/
def opens (path : Arg) (omode : UInt32) (s : State) : Except String (Int × Option Nat) :=
  (sysOpen (some path) omode s).map fun r => (r.1, r.2.fdInode r.1)

/-- The target is empty, or agrees with the path from the second byte on. -/
def Fits (path target : Str) : Prop := target = [] ∨ target.tail = path.tail

/-- A state in which a process may call: no lock is held, no inode waits to be freed, closed
files are empty, and the working directory is a directory. -/
structure Ready (s : State) : Prop where
  idle : Idle s
  quiet : Quiet s.ref s.node
  files : ∀ f, (s.ftable f).ref = 0 → (s.ftable f).type = .none
  cwd : (s.node s.myproc.cwd).type = tDir

/-- The loop of `sys_open` from the inode that a lookup has found. -/
def followed (fuel count : Nat) (buf : List UInt8) : Option Nat → K (Option (Nat × Nat))
  | none => pure none
  | some ip => do
    ilock ip
    follow fuel count buf ip

def resolve (path : Str) (fuel count : Nat) (buf : List UInt8) : K (Option (Nat × Nat)) := do
  let x ← namei path
  followed fuel count buf x

section
variable {s s1 s2 t t' : State} {ip n fuel count : Nat} {path : Str} {omode : UInt32}

theorem Ready.begun (h : Ready s) : At s.begun s.node [] [] 0 s.begun := by
  have hb : beginOp s = .ok ((), s.begun) := rfl
  exact h.idle.beginOp hb

theorem Names.unique {i j : Nat} (hi : Names s path i) (hj : Names s path j) : i = j := by
  obtain ⟨s1, h1⟩ := hi
  obtain ⟨s2, h2⟩ := hj
  rw [h1] at h2
  cases h2
  rfl

theorem Names.of_namei (hrd : Ready s) (h : At s.begun s.node [] [] 0 t)
    (hr : namei path t = .ok (some ip, t')) : Names s path ip := by
  have hag : Agree Alike Eq (namei path t) (namei path s.begun) :=
    respects_namei _ _ (h.alike hrd.begun)
  rw [hr] at hag
  obtain ⟨x, t1, heq, rfl, -⟩ := hag.of_ok
  exact ⟨t1, heq⟩

theorem Names.namei (hrd : Ready s) (h : At s.begun s.node [] [] 0 t) (hn : Names s path ip) :
    ∃ t', Sys.namei path t = .ok (some ip, t') := by
  obtain ⟨t1, heq⟩ := hn
  have hag : Agree Alike Eq (Sys.namei path s.begun) (Sys.namei path t) :=
    respects_namei _ _ (hrd.begun.alike h)
  rw [heq] at hag
  obtain ⟨x, t', heq, rfl, -⟩ := hag.of_ok
  exact ⟨t', heq⟩

theorem Names.nil (hrd : Ready s) (hn : Names s [] ip) : (s.node ip).type = tDir := by
  obtain ⟨t, ht⟩ := hn
  obtain ⟨hw, -⟩ := hrd.begun.namei hrd.quiet ht
  have hcwd : walk s.node (s.begun.start []) (elements []) = some s.myproc.cwd := by
    simp [elements, State.start]
    rfl
  rw [hcwd] at hw
  cases hw
  exact hrd.cwd

theorem cstr_stored {a : Arg} {data : List UInt8} (h : a.stored <+: data) : cstr data = a.str := by
  obtain ⟨rest, rfl⟩ := h
  have hne : ∀ b ∈ a.str, b ≠ 0 := fun b hb he => a.noNul (he ▸ hb)
  unfold cstr Arg.stored
  rw [List.append_assoc, List.takeWhile_append_of_pos (by simpa using hne)]
  simp

theorem LinkTo.unique {a b : Arg} (ha : LinkTo s ip a) (hb : LinkTo s ip b) : a.str = b.str := by
  rw [← cstr_stored ha.2, cstr_stored hb.2]

theorem cstr_hop {a b : Arg} {buf : List UInt8} (hbuf : buf.drop 1 = b.str.tail ++ [0]) :
    cstr (a.stored.take 1 ++ buf.drop 1) = hopPath b.str a.str := by
  have hnul := a.noNul
  have htl : ∀ x ∈ b.str.tail, x ≠ 0 := fun x hx he => b.noNul (he ▸ List.mem_of_mem_tail hx)
  unfold Arg.stored
  cases hstr : a.str with
  | nil => rfl
  | cons c rest =>
    rw [hstr] at hnul
    have hc : c ≠ 0 := fun he => hnul (he ▸ List.mem_cons_self ..)
    rw [hbuf]
    change (c :: (b.str.tail ++ [0])).takeWhile (· ≠ 0) = c :: b.str.tail
    rw [List.takeWhile_cons_of_pos (by simpa using hc),
      List.takeWhile_append_of_pos (by simpa using htl)]
    simp

theorem Fits.hopPath {target : Str} (h : Fits path target) : hopPath path target = target := by
  cases target with
  | nil => rfl
  | cons c rest =>
    cases h with
    | inl he => cases he
    | inr he =>
      rw [Sys.hopPath, ← he]
      rfl

theorem Chain.meets {p : Str} {ts : List Arg} (hc : Chain s p ts)
    (hfit : ∀ a ∈ ts, Fits path a.str) : Meets s path p ts.length := by
  induction hc with
  | stop hstop => exact .stop hstop
  | @hop p i a ts hn hl hc ih =>
    apply Meets.hop hn hl
    rw [(hfit a (List.mem_cons_self ..)).hopPath]
    exact ih fun b hb => hfit b (List.mem_cons_of_mem _ hb)

theorem drop_hop (a : Arg) (buf : List UInt8) :
    (a.stored.take 1 ++ buf.drop 1).drop 1 = buf.drop 1 := by
  cases hst : a.stored with
  | nil => simp [Arg.stored] at hst
  | cons c rest => rfl

theorem follow_hop {a : Arg} {buf : List UInt8} {s0 : State} {hs : List Nat}
    (h : At s0 s.node hs [ip] n s1) (hl : LinkTo s ip a) :
    follow (fuel+1) count buf ip s1 = (do
      iunlockput ip
      let buf := a.stored.take 1 ++ buf.drop 1
      resolve (cstr buf) fuel (count+1) buf : K _) s1 := by
  obtain ⟨ht, rest, hrest⟩ := hl
  have hlen : 1 ≤ a.stored.length := by simp [Arg.stored]
  have hone : (a.stored.take 1).length = 1 := by
    rw [List.length_take]
    omega
  have hread : readi ip 0 (0+1) s1 = .ok (a.stored.take 1, s1) := by
    unfold readi
    rw [h.node, ← hrest]
    dsimp only
    rw [List.drop_zero, if_pos ⟨Nat.zero_le _, by decide⟩, List.take_append_of_le_length hlen]
  unfold follow
  rw [h.inode, if_pos ht, bind_of_ok hread, if_neg (by rw [hone]; decide)]
  rfl

def OneMore (x y : Option (Nat × Nat)) : Prop :=
  (x = none ∧ y = none) ∨ ∃ ip c, x = some (ip, c+1) ∧ y = some (ip, c) ∧ c+1 < 10

theorem resolve_stop (hrd : Ready s) (hstop : ∀ i, Names s path i → (s.node i).type ≠ tSymlink)
    (hcount : count + 1 < 10) {b1 b2 : List UInt8} (hs1 : At s.begun s.node [] [] 0 s1)
    (hs2 : At s.begun s.node [] [] 0 s2) :
    Agree Alike OneMore (resolve path (fuel+1) (count+1) b1 s1)
      (resolve path (fuel+2) count b2 s2) := by
  apply (respects_namei s1 s2 (hs1.alike hs2)).bind
  intro x y t1 t2 hx hy hxy hal
  subst hxy
  cases x with
  | none => exact ⟨.inl ⟨rfl, rfl⟩, hal⟩
  | some i =>
    obtain ⟨-, ht1⟩ := hs1.namei hrd.quiet hx
    obtain ⟨-, ht2⟩ := hs2.namei hrd.quiet hy
    have hi := hstop i (.of_namei hrd hs1 hx)
    apply (respects_ilock t1 t2 hal).bind
    intro _ _ u1 u2 hl1 hl2 _ hal
    obtain ⟨hu1, -⟩ := ht1.ilock hl1
    obtain ⟨hu2, -⟩ := ht2.ilock hl2
    unfold follow
    rw [hu1.inode, hu2.inode, if_neg hi, if_neg hi]
    exact ⟨.inr ⟨i, count, rfl, rfl, hcount⟩, hal⟩

/-- Two lookups of the same path, with buffers that differ in the first byte only, meet the same
links. -/
theorem resolve_alike (hrd : Ready s) {b : Arg} {k : Nat} (hm : Meets s b.str path k)
    (hcount : count + 1 + fuel = 10) (hk : k < fuel) {b1 b2 : List UInt8}
    (h1 : b1.drop 1 = b.str.tail ++ [0]) (h2 : b2.drop 1 = b.str.tail ++ [0])
    (hs1 : At s.begun s.node [] [] 0 s1) (hs2 : At s.begun s.node [] [] 0 s2) :
    Agree Alike OneMore (resolve path fuel (count+1) b1 s1) (resolve path (fuel+1) count b2 s2) := by
  induction hm generalizing fuel count b1 b2 s1 s2 with
  | stop hstop =>
    obtain ⟨fuel, rfl⟩ : ∃ m, fuel = m+1 := ⟨fuel - 1, by omega⟩
    exact resolve_stop hrd hstop (by omega) hs1 hs2
  | @hop path i k a hn hl hm ih =>
    obtain ⟨fuel, rfl⟩ : ∃ m, fuel = m+1 := ⟨fuel - 1, by omega⟩
    obtain ⟨t1, hx⟩ := hn.namei hrd hs1
    obtain ⟨t2, hy⟩ := hn.namei hrd hs2
    obtain ⟨-, ht1⟩ := hs1.namei hrd.quiet hx
    obtain ⟨-, ht2⟩ := hs2.namei hrd.quiet hy
    unfold resolve
    rw [bind_of_ok hx, bind_of_ok hy]
    apply (respects_ilock t1 t2 (ht1.alike ht2)).bind
    intro _ _ u1 u2 hl1 hl2 _ hal
    obtain ⟨hu1, -, hi⟩ := ht1.ilock hl1
    obtain ⟨hu2, -, -⟩ := ht2.ilock hl2
    rw [follow_hop hu1 hl, follow_hop hu2 hl]
    apply (respects_iunlockput u1 u2 hal).bind
    intro _ _ w1 w2 hp1 hp2 _ _
    have hw1 := hu1.iunlockput List.not_mem_nil (hrd.quiet.held hi) hp1
    have hw2 := hu2.iunlockput List.not_mem_nil (hrd.quiet.held hi) hp2
    rw [cstr_hop h1, cstr_hop h2]
    exact ih (by omega) (by omega) (by rw [drop_hop, h1]) (by rw [drop_hop, h2]) hw1 hw2

theorem respects_openCheck {z : Option (Nat × Nat)} : Respects (openCheck omode z) := by
  cases z with
  | none => exact .pure _
  | some p =>
    unfold openCheck
    apply Respects.ite (respects_iunlockput.bind fun _ => .pure _)
    apply respects_inode.bind
    intro nd
    exact .ite (respects_iunlockput.bind fun _ => .pure _) (.pure _)

theorem openCheck_alike {x y : Option (Nat × Nat)} (hxy : OneMore x y) (h : Alike s1 s2) :
    Agree Alike Eq (openCheck omode x s1) (openCheck omode y s2) := by
  cases hxy with
  | inl hnone =>
    rw [hnone.1, hnone.2]
    exact ⟨rfl, h⟩
  | inr hsome =>
    obtain ⟨ip, c, rfl, rfl, hc⟩ := hsome
    have hsame : (openCheck omode (some (ip, c+1))) = openCheck omode (some (ip, c)) := by
      simp only [openCheck]
      rw [if_neg (by omega), if_neg (by omega)]
    rw [hsame]
    exact respects_openCheck s1 s2 h

theorem openInode_resolve {a : Arg} (hrd : Ready s) (h : At s.begun s.node [] [] 0 t)
    (hcr : omode &&& oCreate = 0) (hnf : omode &&& oNofollow = 0) :
    openInode a omode t = (do
      let z ← resolve a.str 10 0 a.stored
      openCheck omode z : K _) t := by
  unfold openInode resolve
  rw [if_neg (not_not.mpr hcr)]
  cases hx : namei a.str t with
  | error e =>
    rw [bind_of_error hx]
    exact (bind_of_error (bind_of_error hx)).symm
  | ok p =>
    obtain ⟨x, t1⟩ := p
    rw [bind_of_ok hx, bind_assoc, bind_of_ok hx]
    cases x with
    | none => rfl
    | some ip =>
      obtain ⟨-, ht1⟩ := h.namei hrd.quiet hx
      dsimp only [followed]
      rw [bind_assoc]
      cases hl : ilock ip t1 with
      | error e => rw [bind_of_error hl, bind_of_error hl]
      | ok q =>
        obtain ⟨u, t2⟩ := q
        obtain ⟨ht2, -⟩ := ht1.ilock hl
        rw [bind_of_ok hl, bind_of_ok hl, ht2.inode]
        unfold openLink
        by_cases ht : (s.node ip).type = tSymlink
        · rw [if_pos ⟨ht, hnf⟩]
        · rw [if_neg (fun hc => ht hc.1)]
          have hstop : follow 10 0 a.stored ip t2 = .ok (some (ip, 0), t2) := by
            unfold follow
            rw [ht2.inode, if_neg ht]
            rfl
          rw [bind_of_ok hstop]
          rfl

theorem At.ilock_ok {s0 : State} {nd : Nat → Node} {hs : List Nat}
    (h : At s0 nd (ip :: hs) [] n s1) (hip : (nd ip).type ≠ 0) :
    ∃ s2, Sys.ilock ip s1 = Except.ok ((), s2) := by
  have href := h.ref ip
  rw [List.count_cons_self] at href
  have hlock : s1.locked ip = false := by
    have := h.locked ip
    simpa using this
  rw [ilock_eq h.wf, if_neg (by omega), hlock, if_neg (by decide), h.node, if_neg hip]
  exact ⟨_, rfl⟩

theorem At.iunlockput_ok {s0 : State} {nd : Nat → Node} {hs : List Nat}
    (h : At s0 nd (ip :: hs) [ip] n s1) : ∃ s2, Sys.iunlockput ip s1 = Except.ok ((), s2) := by
  have href := h.ref ip
  rw [List.count_cons_self] at href
  have hlock : s1.locked ip = true := (h.locked ip).mpr (List.mem_cons_self ..)
  have hun : Sys.iunlock ip s1 = Except.ok ((), s1.setLocked ip false) := by
    unfold Sys.iunlock
    rw [if_neg]
    rw [hlock]
    simp only [Bool.true_eq_false, false_or]
    omega
  unfold Sys.iunlockput
  rw [bind_of_ok hun]
  unfold Sys.iput
  split
  · exact ⟨_, rfl⟩
  · exact ⟨_, rfl⟩

/-- A lookup that starts at a link is, after one turn of the loop, a lookup of what the buffer
holds. -/
theorem resolve_link {a : Arg} {buf : List UInt8} (hrd : Ready s)
    (h : At s.begun s.node [] [] 0 s1) (hn : Names s path ip) (hl : LinkTo s ip a) :
    ∃ s2, At s.begun s.node [] [] 0 s2 ∧ resolve path (fuel+1) count buf s1 =
      resolve (cstr (a.stored.take 1 ++ buf.drop 1)) fuel (count+1)
        (a.stored.take 1 ++ buf.drop 1) s2 := by
  have hip : (s.node ip).type ≠ 0 := by
    rw [hl.1]
    decide
  obtain ⟨t1, hx⟩ := hn.namei hrd h
  obtain ⟨-, ht1⟩ := h.namei hrd.quiet hx
  obtain ⟨t2, hlock⟩ := ht1.ilock_ok hip
  obtain ⟨ht2, -⟩ := ht1.ilock hlock
  obtain ⟨t3, hput⟩ := ht2.iunlockput_ok
  refine ⟨t3, ht2.iunlockput List.not_mem_nil (hrd.quiet.held hip) hput, ?_⟩
  unfold resolve
  rw [bind_of_ok hx]
  dsimp only [followed]
  rw [bind_of_ok hlock, follow_hop ht2 hl, bind_of_ok hput]
  rfl

theorem Names.drop_stored {path : Arg} (hrd : Ready s) (hn : Names s path.str ip)
    (ht : (s.node ip).type = tSymlink) : path.stored.drop 1 = path.str.tail ++ [0] := by
  unfold Arg.stored
  cases hp : path.str with
  | nil =>
    rw [hp] at hn
    have hdir := hn.nil hrd
    rw [ht] at hdir
    exact absurd hdir (by decide)
  | cons c rest => rfl

/-- The lookup through the link and the lookup of its target end alike. -/
theorem resolve_target {path target : Arg} {k : Nat} (hrd : Ready s)
    (hn : Names s path.str ip) (hl : LinkTo s ip target) (hm : Meets s path.str path.str k)
    (hk : k < 10) (hfit : Fits path.str target.str) :
    Agree Alike OneMore (resolve path.str 10 0 path.stored s.begun)
      (resolve target.str 10 0 target.stored s.begun) := by
  have hpath := hn.drop_stored hrd hl.1
  have hmt : ∃ k < 9, Meets s path.str target.str k := by
    cases hm with
    | stop hstop => exact absurd hl.1 (hstop ip hn)
    | @hop _ i k a hni hla hm =>
      have hi := hni.unique hn
      subst hi
      rw [hla.unique hl, hfit.hopPath] at hm
      exact ⟨k, by omega, hm⟩
  obtain ⟨k, hk, hm⟩ := hmt
  obtain ⟨s2, hs2, hres⟩ := @resolve_link _ _ _ 9 0 _ _ path.stored hrd hrd.begun hn hl
  rw [hres, cstr_hop hpath, hfit.hopPath]
  cases hstr : target.str with
  | nil =>
    apply resolve_stop hrd _ (by decide) hs2 hrd.begun
    intro j hj hsym
    have hdir := hj.nil hrd
    rw [hsym] at hdir
    exact absurd hdir (by decide)
  | cons c rest =>
    have htl : target.stored.drop 1 = path.str.tail ++ [0] := by
      rw [hstr] at hfit
      cases hfit with
      | inl he => cases he
      | inr he =>
        rw [← he, Arg.stored, hstr]
        rfl
    rw [hstr] at hm
    exact resolve_alike hrd hm (by decide) hk (by rw [drop_hop, hpath]) htl hs2 hrd.begun

theorem Alike.fdInode (h : Alike s t) (fd : Int) : t.fdInode fd = s.fdInode fd := by
  obtain ⟨⟨v, rfl⟩, -⟩ := h
  rfl

theorem opens_target {path target : Arg} {k : Nat} (hrd : Ready s)
    (hn : Names s path.str ip) (hl : LinkTo s ip target) (hm : Meets s path.str path.str k)
    (hk : k < 10) (hfit : Fits path.str target.str)
    (hcr : omode &&& oCreate = 0) (hnf : omode &&& oNofollow = 0) :
    opens path omode s = opens target omode s := by
  have hag : Agree Alike Eq (sysOpen (some path) omode s) (sysOpen (some target) omode s) := by
    have hb : beginOp s = .ok ((), s.begun) := rfl
    have hinode : Agree Alike Eq (openInode path omode s.begun)
        (openInode target omode s.begun) := by
      rw [openInode_resolve hrd hrd.begun hcr hnf, openInode_resolve hrd hrd.begun hcr hnf]
      apply (resolve_target hrd hn hl hm hk hfit).bind
      intro x y t1 t2 _ _ hxy hal
      exact openCheck_alike hxy hal
    dsimp only [sysOpen]
    rw [bind_of_ok hb, bind_of_ok hb]
    apply hinode.bind
    intro x y t1 t2 hx _ hxy hal
    subst hxy
    cases x with
    | none =>
      apply (respects_endOp t1 t2 hal).bind
      intro _ _ u1 u2 _ _ _ hal
      exact ⟨rfl, hal⟩
    | some i =>
      cases hrd.begun.openLookup hrd.quiet (not_not.mpr hcr) hx with
      | inl hnone => cases hnone.1
      | inr hsome =>
        obtain ⟨j, -, -, -, hat⟩ := hsome
        apply openFile_alike hal
        rw [hat.ftable]
        exact hrd.files
  unfold opens
  cases hp : sysOpen (some path) omode s with
  | error e =>
    cases ht : sysOpen (some target) omode s with
    | error e' =>
      rw [hp, ht] at hag
      rw [show e = e' from hag]
    | ok q =>
      rw [hp, ht] at hag
      exact hag.elim
  | ok p =>
    rw [hp] at hag
    obtain ⟨r, u, ht, hr, hal⟩ := hag.of_ok
    rw [ht]
    change Except.ok (p.1, p.2.fdInode p.1) = Except.ok (r, u.fdInode r)
    rw [hal.fdInode, hr]

theorem Missing.names_created {s0 : State} {nd : Nat → Node} {dp k : Nat} {name : Str}
    {type major minor : Int16} (h : Missing s0 nd path dp name) (hip : (nd ip).type = 0)
    (h0 : 0 < ip) (hi : ip < 65536) (hv : Vacant (nd dp).data k) (x : Node) :
    Sys.walk (Function.update (created nd dp k ip name type major minor) ip x) (s0.start path)
      (elements path) = some ip := by
  have hne := h.ne hip
  obtain ⟨es, hes, hwalk⟩ := h.last
  have hdp : (Function.update (created nd dp k ip name type major minor) ip x dp).type = tDir ∧
      (Function.update (created nd dp k ip name type major minor) ip x dp).data =
        overwrite (nd dp).data (16*k) (Dirent.bytes ip name) := by
    rw [Function.update_of_ne hne.symm, created, Function.update_self]
    exact ⟨h.dir, rfl⟩
  have hwalk : Sys.walk (Function.update (created nd dp k ip name type major minor) ip x)
      (s0.start path) es = some dp := by
    apply walk_mono _ hwalk
    intro i hd
    by_cases hid : i = dp
    · subst hid
      refine ⟨hdp.1, fun e j hj => ?_⟩
      rw [hdp.2]
      exact find_vacant_ne hv hi h.absent hj
    · have hii : i ≠ ip := by
        intro he
        rw [he, hip] at hd
        exact tDir_ne_zero hd.symm
      rw [Function.update_of_ne hii, created, Function.update_of_ne hid, Function.update_of_ne hii]
      exact ⟨hd, fun e j hj => ⟨hj, rfl⟩⟩
  rw [hes, walk_append, hwalk, Option.bind_some, Sys.walk, if_neg (not_not.mpr hdp.1), hdp.2,
    find_vacant hv h0 hi h.absent]
  dsimp only
  rw [slot_overwrite_self hv.le (bytes_length ..), ofBytes_bytes _ _ hi]
  rfl

theorem Sound.link {s0 : State} {target path : Arg} (h : Sound s0)
    (hnew : s0.names path.str = none)
    (hr : Sys.sysSymlink (some target) (some path) s0 = Except.ok (0, s)) :
    ∃ i, (s0.node i).type = 0 ∧ s.names path.str = some i ∧ LinkTo s i target := by
  obtain ⟨nd, n, hexit, hat⟩ := h.coherent.sysSymlink hr
  generalize hret : (0 : Int) = r at hexit
  cases hexit with
  | refused => cases hret
  | overwritten hn =>
    rw [hnew] at hn
    cases hn
  | unlinked => cases hret
  | @linked ip dp k name hm hip h0 hi hv _ =>
    have hcount := h.shape.count
    have hstart : s.start path.str = s0.start path.str := by
      unfold State.start State.myproc
      rw [hat.proc, hat.cur]
    refine ⟨ip, hip, ?_, ?_⟩
    · rw [State.names, hstart, hat.node]
      exact hm.names_created hip h0 (by omega) hv _
    · unfold LinkTo
      rw [hat.node, Function.update_self]
      exact ⟨rfl, [], by rw [List.append_nil]⟩
  | stranded => cases hret

/-- A link that `symlink(target, path)` has made opens what its target opens, in every state in
which `path` still names it and fewer than ten links are met, if the target fits the path. -/
theorem symlink_opens_target {s0 s1 : State} {target path : Arg} (h : Sound s0)
    (hnew : s0.names path.str = none)
    (hr : sysSymlink (some target) (some path) s0 = .ok (0, s1))
    (hfit : Fits path.str target.str) :
    ∃ link, (s0.node link).type = 0 ∧ s1.names path.str = some link ∧ LinkTo s1 link target ∧
      ∀ s omode k, Ready s → Names s path.str link → LinkTo s link target →
        Meets s path.str path.str k → k < 10 → omode &&& oCreate = 0 → omode &&& oNofollow = 0 →
        opens path omode s = opens target omode s := by
  obtain ⟨link, hfree, hname, hlink⟩ := h.link hnew hr
  refine ⟨link, hfree, hname, hlink, ?_⟩
  intro s omode k hrd hn hl hm hk hcr hnf
  exact opens_target hrd hn hl hm hk hfit hcr hnf

end

/-! Links to `.` in a new file system. -/

def nameDot : Arg := ⟨[46], by decide, by decide⟩
def nameAb : Arg := ⟨[97, 98], by decide, by decide⟩

def dotLink (path : Arg) : State :=
  match sysSymlink (some nameDot) (some path) newFs with
  | .ok (_, s) => s
  | .error _ => newFs

theorem dotLink_ready {path : Arg} (hnew : newFs.names path.str = none)
    (hr : sysSymlink (some nameDot) (some path) newFs = .ok (0, dotLink path))
    (hcwd : ((dotLink path).node (dotLink path).myproc.cwd).type = tDir) :
    Ready (dotLink path) := by
  have hs := (newFs_sound.sysSymlink_iff hr).mpr (fresh_symlink hnew (by decide))
  exact ⟨hs.idle, hs.quiet, hs.files, hcwd⟩

theorem dotLink_chain {path : Arg} {link : Nat} (hn : Names (dotLink path) path.str link)
    (hl : LinkTo (dotLink path) link nameDot) (hdot : Names (dotLink path) nameDot.str rootino)
    (hroot : ((dotLink path).node rootino).type ≠ tSymlink) :
    Chain (dotLink path) path.str [nameDot] := by
  apply Chain.hop hn hl (.stop _)
  intro i hi
  rw [hi.unique hdot]
  exact hroot

theorem symlink_opens_target_dot :
    sysSymlink (some nameDot) (some nameA) newFs = .ok (0, dotLink nameA) ∧
    opens nameA 0 (dotLink nameA) = .ok (0, some rootino) ∧
    opens nameA 0 (dotLink nameA) = opens nameDot 0 (dotLink nameA) := by
  have hnew : newFs.names nameA.str = none := by decide
  have hr : sysSymlink (some nameDot) (some nameA) newFs = .ok (0, dotLink nameA) := rfl
  have hfit : Fits nameA.str nameDot.str := .inr rfl
  obtain ⟨link, -, hname, hl, hopen⟩ := symlink_opens_target newFs_sound hnew hr hfit
  have hlink : (dotLink nameA).names nameA.str = some 2 := by decide
  rw [hlink] at hname
  cases hname
  have hn : Names (dotLink nameA) nameA.str 2 := ⟨_, rfl⟩
  have hdot : Names (dotLink nameA) nameDot.str rootino := ⟨_, rfl⟩
  have hm : Meets (dotLink nameA) nameA.str nameA.str 1 := by
    apply (dotLink_chain hn hl hdot (by decide)).meets
    intro a ha
    rw [List.mem_singleton.mp ha]
    exact hfit
  have hsame := hopen _ 0 1 (dotLink_ready hnew hr rfl) hn hl hm (by decide) (by decide) (by decide)
  have htarget : opens nameDot 0 (dotLink nameA) = .ok (0, some rootino) := rfl
  exact ⟨hr, hsame.trans htarget, hsame⟩

/-- `symlink(".", "ab")` makes a link that opens nothing, though its target does: the loop looks
up `.b`. -/
theorem symlink_loses_target : Sound newFs ∧ newFs.names nameAb.str = none ∧
    sysSymlink (some nameDot) (some nameAb) newFs = .ok (0, dotLink nameAb) ∧
    Ready (dotLink nameAb) ∧ Names (dotLink nameAb) nameAb.str 2 ∧
    LinkTo (dotLink nameAb) 2 nameDot ∧ Chain (dotLink nameAb) nameAb.str [nameDot] ∧
    opens nameAb 0 (dotLink nameAb) = .ok (-1, none) ∧
    opens nameDot 0 (dotLink nameAb) = .ok (0, some rootino) := by
  have hnew : newFs.names nameAb.str = none := by decide
  have hr : sysSymlink (some nameDot) (some nameAb) newFs = .ok (0, dotLink nameAb) := rfl
  have hn : Names (dotLink nameAb) nameAb.str 2 := ⟨_, rfl⟩
  have hl : LinkTo (dotLink nameAb) 2 nameDot := ⟨rfl, [], rfl⟩
  have hdot : Names (dotLink nameAb) nameDot.str rootino := ⟨_, rfl⟩
  exact ⟨newFs_sound, hnew, hr, dotLink_ready hnew hr rfl, hn, hl,
    dotLink_chain hn hl hdot (by decide), rfl, rfl⟩

end Xv6Labs.Sys
