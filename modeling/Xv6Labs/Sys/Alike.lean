import Xv6Labs.Sys.Open

/-! Two states that differ only in which inodes in use have been read into memory: lookups and
`sys_open` do the same in both. -/
namespace Xv6Labs.Sys
open Kit Fs

/-- Valid inodes are in use and referenced, and locked ones are valid. -/
def Wf (s : State) : Prop :=
  ∀ i, (s.valid i = true → 0 < s.ref i ∧ (s.node i).type ≠ 0) ∧
    (s.locked i = true → s.valid i = true)

def State.withValid (s : State) (v : Nat → Bool) : State := { s with valid := v }

def Alike (s t : State) : Prop := (∃ v, t = s.withValid v) ∧ Wf s ∧ Wf t

/-- `m` does the same in states that are alike. -/
def Respects {α : Type} (m : K α) : Prop :=
  ∀ s t, Alike s t → Agree Alike Eq (m s) (m t)

section
variable {s t : State} {α β : Type} {i off n : Nat}

theorem At.wf {s0 : State} {nd : Nat → Node} {hs ls : List Nat} (h : At s0 nd hs ls n s) : Wf s := by
  intro i
  refine ⟨?_, fun hl => h.lockValid i ((h.locked i).mp hl)⟩
  intro hv
  rw [h.node]
  exact h.valid i hv

/-- What a call has made and holds fixes its state up to validity. -/
theorem At.alike {s0 : State} {nd : Nat → Node} {hs ls : List Nat} (h : At s0 nd hs ls n s)
    (h' : At s0 nd hs ls n t) : Alike s t := by
  refine ⟨⟨t.valid, ?_⟩, h.wf, h'.wf⟩
  have hlock : t.locked = s.locked := by
    funext i
    rw [Bool.eq_iff_iff, h.locked, h'.locked]
  have href : t.ref = s.ref := by
    funext i
    rw [h.ref, h'.ref]
  have hroom : t.room = s.room := by
    funext k
    rw [h.room, h'.room]
  exact State.ext (h'.ninodes.trans h.ninodes.symm) (h'.node.trans h.node.symm) href rfl
    (h'.inuse.trans h.inuse.symm) hlock hroom (h'.ops.trans h.ops.symm)
    (h'.ftable.trans h.ftable.symm) (h'.proc.trans h.proc.symm) (h'.cur.trans h.cur.symm)

theorem Respects.pure (a : α) : Respects (Pure.pure a : K α) := fun _ _ h => ⟨rfl, h⟩

theorem Respects.throw (e : String) : Respects (throw e : K α) := fun _ _ _ => rfl

theorem Respects.bind {m : K α} {f : α → K β} (hm : Respects m) (hf : ∀ a, Respects (f a)) :
    Respects (m >>= f) := by
  intro s t h
  apply (hm s t h).bind
  intro a b s' t' _ _ hab hst
  subst hab
  exact hf a s' t' hst

theorem Respects.ite {c : Prop} [Decidable c] {m m' : K α} (hm : Respects m) (hm' : Respects m') :
    Respects (if c then m else m') := by
  split
  · exact hm
  · exact hm'

theorem respects_inode : Respects (inode i) := by
  intro s t h
  obtain ⟨⟨v, rfl⟩, hs, ht⟩ := h
  exact ⟨rfl, ⟨v, rfl⟩, hs, ht⟩

theorem respects_readi : Respects (readi i off n) := by
  intro s t h
  obtain ⟨⟨v, rfl⟩, hs, ht⟩ := h
  exact ⟨rfl, ⟨v, rfl⟩, hs, ht⟩

theorem Wf.hold (h : Wf s) : Wf (s.hold i) := by
  intro j
  unfold State.hold
  split
  · rename_i h0
    have hne : s.valid j = true → j ≠ i := by
      intro hv he
      have := ((h j).1 hv).1
      rw [he, h0] at this
      omega
    refine ⟨?_, ?_⟩
    · intro hv
      by_cases hj : j = i
      · simp [State.setRef, State.setValid, hj] at hv
      · simp only [State.setRef, State.setValid, Function.update_of_ne hj] at hv ⊢
        exact (h j).1 hv
    · intro hl
      have hv := (h j).2 hl
      simpa [State.setRef, State.setValid, hne hv] using hv
  · refine ⟨?_, (h j).2⟩
    intro hv
    have := (h j).1 hv
    refine ⟨?_, this.2⟩
    by_cases hj : j = i
    · simp [State.setRef, hj]
    · simpa [State.setRef, hj] using this.1

theorem hold_withValid (v : Nat → Bool) :
    ∃ v', (s.withValid v).hold i = (s.hold i).withValid v' := by
  unfold State.hold
  change ∃ v', (if s.ref i = 0 then _ else _) = State.withValid (if s.ref i = 0 then _ else _) v'
  split
  · exact ⟨_, rfl⟩
  · exact ⟨_, rfl⟩

theorem Alike.hold (h : Alike s t) : Alike (s.hold i) (t.hold i) := by
  obtain ⟨⟨v, rfl⟩, hs, ht⟩ := h
  exact ⟨hold_withValid v, hs.hold, ht.hold⟩

theorem respects_iget : Respects (iget i) := by
  intro s t h
  have hal := h.hold (i := i)
  obtain ⟨⟨v, rfl⟩, hs, ht⟩ := h
  unfold iget
  change Agree Alike Eq (if s.ref i = 0 ∧ ninode ≤ s.inuse then _ else _)
    (if s.ref i = 0 ∧ ninode ≤ s.inuse then _ else _)
  split
  · rfl
  · exact ⟨rfl, hal⟩

theorem respects_idup : Respects (idup i) := fun _ _ h => ⟨rfl, h.hold⟩

theorem Wf.lock (h : Wf s) (hv : 0 < s.ref i ∧ (s.node i).type ≠ 0) :
    Wf ((s.setLocked i true).setValid i true) := by
  intro j
  by_cases hj : j = i
  · subst hj
    exact ⟨fun _ => hv, fun _ => by simp [State.setLocked, State.setValid]⟩
  · simpa [State.setLocked, State.setValid, hj] using h j

theorem setValid_self (hv : s.valid i = true) : s.setValid i true = s := by
  unfold State.setValid
  rw [← hv, Function.update_eq_self]

/-- `ilock` by what it needs: validity decides nothing that the type does not. -/
theorem ilock_eq (h : Wf s) : ilock i s =
    if s.ref i < 1 then .error "ilock"
    else if s.locked i then .error "acquiresleep"
    else if (s.node i).type = 0 then .error "ilock: no type"
    else .ok ((), (s.setLocked i true).setValid i true) := by
  unfold ilock
  by_cases hv : s.valid i = true
  · have ht := ((h i).1 hv).2
    rw [if_pos hv, if_neg ht]
    have : (s.setLocked i true).setValid i true = s.setLocked i true := setValid_self hv
    rw [this]
  · rw [if_neg hv]

theorem respects_ilock : Respects (ilock i) := by
  intro s t h
  obtain ⟨⟨v, rfl⟩, hs, ht⟩ := h
  rw [ilock_eq hs, ilock_eq ht]
  change Agree Alike Eq (if s.ref i < 1 then _ else if s.locked i = true then _ else
    if (s.node i).type = 0 then _ else _) (if s.ref i < 1 then _ else if s.locked i = true then _
    else if (s.node i).type = 0 then _ else _)
  split
  · rfl
  · rename_i href
    split
    · rfl
    · split
      · rfl
      · rename_i htype
        have hpos : 0 < s.ref i ∧ (s.node i).type ≠ 0 := ⟨by omega, htype⟩
        exact ⟨rfl, ⟨_, rfl⟩, hs.lock hpos, ht.lock hpos⟩

theorem Wf.unlock (h : Wf s) : Wf (s.setLocked i false) := by
  intro j
  refine ⟨(h j).1, ?_⟩
  intro hl
  by_cases hj : j = i
  · simp [State.setLocked, hj] at hl
  · exact (h j).2 (by simpa [State.setLocked, hj] using hl)

theorem respects_iunlock : Respects (iunlock i) := by
  intro s t h
  obtain ⟨⟨v, rfl⟩, hs, ht⟩ := h
  unfold iunlock
  change Agree Alike Eq (if s.locked i = false ∨ s.ref i < 1 then _ else _)
    (if s.locked i = false ∨ s.ref i < 1 then _ else _)
  split
  · rfl
  · exact ⟨rfl, ⟨v, rfl⟩, hs.unlock, ht.unlock⟩

theorem Wf.drop (h : Wf s) (hl : s.locked i = false) : Wf (s.drop i) := by
  intro j
  have hlj : s.locked j = true → j ≠ i := by
    intro hj he
    rw [he, hl] at hj
    cases hj
  unfold State.drop
  split
  · refine ⟨?_, ?_⟩
    · intro hv
      by_cases hj : j = i
      · simp [State.setRef, State.setValid, hj] at hv
      · simp only [State.setRef, State.setValid, Function.update_of_ne hj] at hv ⊢
        exact (h j).1 hv
    · intro hl'
      simpa [State.setRef, State.setValid, hlj hl'] using (h j).2 hl'
  · rename_i h1
    refine ⟨?_, (h j).2⟩
    intro hv
    have hjv := (h j).1 hv
    refine ⟨?_, hjv.2⟩
    by_cases hj : j = i
    · subst hj
      simp only [State.setRef, Function.update_self]
      omega
    · simpa [State.setRef, hj] using hjv.1

theorem drop_withValid (v : Nat → Bool) :
    ∃ v', (s.withValid v).drop i = (s.drop i).withValid v' := by
  unfold State.drop
  change ∃ v', (if s.ref i = 1 then _ else _) = State.withValid (if s.ref i = 1 then _ else _) v'
  split
  · exact ⟨_, rfl⟩
  · exact ⟨_, rfl⟩

/-- Freeing the last reference keeps what is valid in use. -/
theorem Wf.free {x : Node} (h : Wf s) (hl : s.locked i = false) (h1 : s.ref i = 1) :
    Wf ((s.setNode i x).drop i) := by
  intro j
  have hj := h.drop hl j
  have heq : (s.setNode i x).drop i = (s.drop i).setNode i x := by
    change (if s.ref i = 1 then _ else _) = (if s.ref i = 1 then _ else _ : State).setNode _ _
    rw [if_pos h1, if_pos h1]
    rfl
  rw [heq]
  refine ⟨?_, hj.2⟩
  intro hv
  by_cases hji : j = i
  · have : (s.drop i).valid i = false := by
      rw [State.drop, if_pos h1]
      simp [State.setValid]
    rw [hji] at hv
    change (s.drop i).valid i = true at hv
    rw [this] at hv
    cases hv
  · have := hj.1 hv
    simpa [State.setNode, hji] using this

/-- A locked inode is valid in both states, so `iput` frees it in both or in neither. -/
theorem respects_iunlockput : Respects (iunlockput i) := by
  intro s t h
  unfold iunlockput
  apply (respects_iunlock s t h).bind
  intro _ _ s' t' hs1 ht1 _ hst
  obtain ⟨⟨v, rfl⟩, hs, ht⟩ := h
  -- What `iunlock` has left.
  have hlocked : s.locked i = true := by
    unfold iunlock at hs1
    split at hs1
    · cases hs1
    · rename_i hc
      simpa using (not_or.mp hc).1
  have hs' : s' = s.setLocked i false := by
    unfold iunlock at hs1
    split at hs1
    · cases hs1
    · cases hs1
      rfl
  have ht' : t' = (s.setLocked i false).withValid v := by
    unfold iunlock at ht1
    split at ht1
    · cases ht1
    · cases ht1
      rfl
  have hvs : s.valid i = true := (hs i).2 hlocked
  have hvt : v i = true := (ht i).2 hlocked
  obtain ⟨-, hws, hwt⟩ := hst
  rw [hs'] at hws ⊢
  rw [ht'] at hwt ⊢
  have hun : (s.setLocked i false).locked i = false := by simp [State.setLocked]
  unfold iput
  change Agree Alike Eq
    (if s.ref i = 1 ∧ s.valid i = true ∧ (s.node i).nlink = 0 then _ else _)
    (if s.ref i = 1 ∧ v i = true ∧ (s.node i).nlink = 0 then _ else _)
  simp only [hvs, hvt, true_and]
  split
  · rename_i hc
    refine ⟨rfl, ?_, hws.free hun hc.1, hwt.free hun hc.1⟩
    exact drop_withValid (s := (s.setLocked i false).setNode i (s.node i).freed) v
  · exact ⟨rfl, drop_withValid v, hws.drop hun, hwt.drop hun⟩

theorem respects_scan {dp fuel : Nat} {msg : String} {p : Dirent → Bool} :
    Respects (scan dp msg p fuel off) := by
  induction fuel generalizing off with
  | zero => exact .pure _
  | succ fuel ih =>
    unfold scan
    apply respects_inode.bind
    intro nd
    apply Respects.ite
    · apply respects_readi.bind
      intro b
      exact .ite (.throw _) (.ite (.pure _) ih)
    · exact .pure _

theorem respects_dirlookup {dp : Nat} {name : Str} : Respects (dirlookup dp name) := by
  unfold dirlookup
  apply respects_inode.bind
  intro nd
  apply Respects.ite (.throw _)
  apply respects_scan.bind
  intro r
  cases r.2 with
  | none => exact .pure _
  | some de => exact respects_iget.bind fun _ => .pure _

theorem respects_namexLoop {es : List Str} {ip : Nat} : Respects (namexLoop false ip es) := by
  induction es generalizing ip with
  | nil => exact .pure _
  | cons name rest ih =>
    unfold namexLoop
    apply respects_ilock.bind
    intro _
    apply respects_inode.bind
    intro nd
    apply Respects.ite (respects_iunlockput.bind fun _ => .pure _)
    apply Respects.ite (respects_iunlock.bind fun _ => .pure _)
    apply respects_dirlookup.bind
    intro x
    cases x with
    | none => exact respects_iunlockput.bind fun _ => .pure _
    | some p => exact respects_iunlockput.bind fun _ => ih

theorem respects_startInode {path : Str} : Respects (startInode path) := by
  intro s t h
  have hal := h
  obtain ⟨⟨v, rfl⟩, hs, ht⟩ := h
  unfold startInode
  change Agree Alike Eq
    ((if path.head? = some slash then (do iget rootino; pure rootino)
      else (do idup s.myproc.cwd; pure s.myproc.cwd) : K Nat) s)
    ((if path.head? = some slash then (do iget rootino; pure rootino)
      else (do idup s.myproc.cwd; pure s.myproc.cwd) : K Nat) (s.withValid v))
  exact Respects.ite (respects_iget.bind fun _ => .pure _)
    (respects_idup.bind fun _ => .pure _) _ _ hal

theorem respects_namei {path : Str} : Respects (namei path) := by
  unfold namei namex
  apply Respects.bind _ fun _ => .pure _
  exact respects_startInode.bind fun _ => respects_namexLoop

/-! The open file. -/

variable {f : Nat} {x : File}

theorem respects_file : Respects (file f) := by
  intro s t h
  obtain ⟨⟨v, rfl⟩, hs, ht⟩ := h
  exact ⟨rfl, ⟨v, rfl⟩, hs, ht⟩

theorem respects_setFile : Respects (setFile f x) := by
  intro s t h
  obtain ⟨⟨v, rfl⟩, hs, ht⟩ := h
  exact ⟨rfl, ⟨v, rfl⟩, hs, ht⟩

theorem respects_endOp : Respects endOp := by
  intro s t h
  obtain ⟨⟨v, rfl⟩, hs, ht⟩ := h
  exact ⟨rfl, ⟨v, rfl⟩, hs, ht⟩

theorem respects_filealloc : Respects filealloc := by
  intro s t h
  obtain ⟨⟨v, rfl⟩, hs, ht⟩ := h
  have hft : (s.withValid v).ftable = s.ftable := rfl
  unfold filealloc
  simp only [hft]
  cases (List.range nfile).find? fun f => (s.ftable f).ref = 0 with
  | none => exact ⟨rfl, ⟨v, rfl⟩, hs, ht⟩
  | some f => exact ⟨rfl, ⟨v, rfl⟩, hs, ht⟩

theorem respects_fdalloc : Respects (fdalloc f) := by
  intro s t h
  obtain ⟨⟨v, rfl⟩, hs, ht⟩ := h
  have hmy : (s.withValid v).myproc = s.myproc := rfl
  unfold fdalloc
  simp only [hmy]
  cases (List.range nofile).find? fun fd => (s.myproc.ofile fd).isNone with
  | none => exact ⟨rfl, ⟨v, rfl⟩, hs, ht⟩
  | some fd => exact ⟨rfl, ⟨v, rfl⟩, hs, ht⟩

theorem Wf.trunc (h : Wf s) : Wf (s.setNode i (s.node i).trunc) := by
  intro j
  refine ⟨?_, (h j).2⟩
  intro hv
  have := (h j).1 hv
  by_cases hj : j = i
  · subst hj
    simpa [State.setNode, Node.trunc] using this
  · simpa [State.setNode, hj] using this

theorem respects_itrunc : Respects (itrunc i) := by
  intro s t h
  obtain ⟨⟨v, rfl⟩, hs, ht⟩ := h
  exact ⟨rfl, ⟨v, rfl⟩, hs.trunc, ht.trunc⟩

theorem respects_openFail : Respects (openFail i) :=
  respects_iunlockput.bind fun _ => respects_endOp.bind fun _ => .pure _

theorem openFile_alike {ip : Nat} {omode : UInt32} (h : Alike s t)
    (hfiles : ∀ f, (s.ftable f).ref = 0 → (s.ftable f).type = .none) :
    Agree Alike Eq (openFile ip omode s) (openFile ip omode t) := by
  unfold openFile
  apply (respects_inode s t h).bind
  intro nd nd' s1 t1 hs1 _ hnd h1
  subst hnd
  have hs1 : s1 = s := by
    unfold inode at hs1
    cases hs1
    rfl
  rw [hs1] at h1 ⊢
  split
  · exact respects_openFail _ _ h1
  · apply (respects_filealloc _ _ h1).bind
    intro x y s2 t2 hs2 _ hxy h2
    subst hxy
    cases x with
    | none => exact respects_openFail _ _ h2
    | some f =>
      apply (respects_fdalloc _ _ h2).bind
      intro x y s3 t3 hs3 _ hxy h3
      subst hxy
      cases x with
      | none =>
        -- The allocated file is new, in both states.
        have hnew : (s3.ftable f).ref = 1 ∧ (s3.ftable f).type = .none := by
          obtain ⟨hno, -⟩ | ⟨g, -, hg, hsome⟩ := filealloc_cases s
          · cases hno.symm.trans hs2
          · cases hsome.symm.trans hs2
            obtain ⟨hno, -⟩ | ⟨_, -, -, hsome'⟩ :=
              fdalloc_cases f (s.setFile f { s.ftable f with ref := 1 })
            · cases hno.symm.trans hs3
              simp [State.setFile, hfiles f hg]
            · cases hsome'.symm.trans hs3
        have hsame : t3.ftable = s3.ftable := by
          obtain ⟨⟨v, rfl⟩, -⟩ := h3
          rfl
        have hclose : Agree Alike Eq (fileclose f s3) (fileclose f t3) := by
          rw [fileclose_new hnew.1 hnew.2,
            fileclose_new (hsame ▸ hnew.1) (hsame ▸ hnew.2), hsame]
          exact respects_setFile _ _ h3
        apply hclose.bind
        intro _ _ s4 t4 _ _ _ h4
        exact respects_openFail _ _ h4
      | some fd =>
        have hrest : Respects (do
            let x ← file f
            setFile f (x.opened nd ip omode)
            onlyIf (omode &&& oTrunc ≠ 0 ∧ nd.type = tFile) (itrunc ip)
            iunlock ip
            endOp
            pure (fd : Int) : K Int) := by
          apply respects_file.bind
          intro x
          apply respects_setFile.bind
          intro _
          apply Respects.bind (Respects.ite respects_itrunc (.pure _))
          intro _
          exact respects_iunlock.bind fun _ => respects_endOp.bind fun _ => .pure _
        exact hrest _ _ h3

end

end Xv6Labs.Sys
