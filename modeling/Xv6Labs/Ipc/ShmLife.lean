import Xv6Labs.Ipc.Shm

/-! The life of a shared region: which steps end it, who uses it, and what its page holds. -/
namespace Xv6Labs.Shm
open Kit

/-- The region that `detach` leaves behind. -/
def Region.detached (r : Region) (mapped : Bool) : Region :=
  if mapped then
    if r.dec.refCount = 0 ∧ r.dec.page ≠ 0 then { r.dec with page := 0, used := false } else r.dec
  else r

/-- The same region, up to its count. -/
def Region.Same (r r' : Region) : Prop := r'.used = r.used ∧ r'.key = r.key ∧ r'.page = r.page

/-- The step takes the last mapping of slot `s` away. -/
def State.Drops (st : State) (s : Fin maxShm) : Act → Prop
  | .close p key => (st.reg s).key = key ∧ st.mappers s = {p}
  | .reap p => st.mappers s = {p}
  | _ => False

section
variable {st st' : State} {p q : Fin nproc} {s t : Fin maxShm} {key : Int} {pa : Nat} {a : Act}

theorem reg_detach (st : State) (p : Fin nproc) (s : Fin maxShm) :
    (st.detach p s).reg s = (st.reg s).detached (st.pte p s).isSome := by
  unfold State.detach Region.detached
  by_cases hm : (st.pte p s).isSome = true
  · rw [if_pos hm, if_pos hm]
    simp only
    by_cases hlast : (st.reg s).dec.refCount = 0 ∧ (st.reg s).dec.page ≠ 0
    · rw [if_pos hlast, if_pos hlast]
      exact (reg_setReg _).trans (if_pos rfl)
    · rw [if_neg hlast, if_neg hlast]
      exact (reg_setReg _).trans (if_pos rfl)
  · rw [if_neg hm, if_neg hm]

theorem detach_kept (h : Inv st) (hne : st.mappers s ≠ {p}) :
    (st.reg s).Same ((st.detach p s).reg s) := by
  obtain ⟨_, heq⟩ | ⟨_, _, _, heq⟩ | ⟨hpte, _, hlast, _⟩ := detach_cases h p s
  · rw [heq]
    exact ⟨rfl, rfl, rfl⟩
  · have hreg : (st.detach p s).reg s =
        { st.reg s with refCount := ((st.mappers s).erase p).card } := by
      rw [heq, reg_setReg, if_pos rfl]
    rw [hreg]
    exact ⟨rfl, rfl, rfl⟩
  · have hmem : p ∈ st.mappers s := mem_mappers.mpr (by rw [hpte]; rfl)
    rw [Finset.erase_eq_empty_iff] at hlast
    cases hlast with
    | inl hempty =>
      rw [hempty] at hmem
      cases hmem
    | inr hone => exact absurd hone hne

theorem detach_last (h : Inv st) (heq : st.mappers s = {p}) :
    ((st.detach p s).reg s).used = false := by
  have hmem : (st.pte p s).isSome := mem_mappers.mp (by rw [heq]; exact Finset.mem_singleton_self p)
  obtain ⟨hnone, _⟩ | ⟨_, _, hne, _⟩ | ⟨_, _, _, hd⟩ := detach_cases h p s
  · rw [hnone] at hmem
    cases hmem
  · rw [heq] at hne
    simp at hne
  · rw [hd]
    simp [State.setReg]

theorem mappers_ne_singleton (hq : (st.pte q s).isSome) (hne : q ≠ p) : st.mappers s ≠ {p} := by
  intro heq
  have hmem := mem_mappers.mpr hq
  rw [heq] at hmem
  exact hne (Finset.mem_singleton.mp hmem)

theorem not_drops_close (hq : (st.pte q s).isSome) (hne : q ≠ p) :
    ¬ st.Drops s (.close p key) :=
  fun hd => mappers_ne_singleton hq hne hd.2

theorem reg_cleanupSlot (h : Inv st) (s : Fin maxShm) :
    (State.cleanupSlot p st s).reg s = (st.detach p s).reg s := by
  unfold State.cleanupSlot
  split
  · rfl
  · next hs => simp [State.detach, pte_unusedReg h hs p]

theorem reg_cleanupSlot_ne (hts : t ≠ s) : (State.cleanupSlot p st t).reg s = st.reg s := by
  unfold State.cleanupSlot
  split
  · exact reg_detach_ne hts
  · rfl

/-- The loop of `shm_cleanup` detaches each slot once, by what it was before the loop. -/
theorem reg_cleanup_fold (ss : List (Fin maxShm)) (h : Inv st) :
    (ss.foldl (State.cleanupSlot p) st).reg s =
      if s ∈ ss then (st.detach p s).reg s else st.reg s := by
  induction ss generalizing st with
  | nil => simp
  | cons t ss ih =>
    have hinv : Inv (State.cleanupSlot p st t) := ((Cleaning.refl (p := p) h).slot t).inv
    rw [List.foldl_cons, ih hinv, reg_detach]
    by_cases hts : t = s
    · subst hts
      have hpte : (State.cleanupSlot p st t).pte p t = none := by
        rw [pte_cleanupSlot h, if_pos ⟨rfl, rfl⟩]
      simp [hpte, Region.detached, reg_cleanupSlot h]
    · have hpte : (State.cleanupSlot p st t).pte p s = st.pte p s := by
        rw [pte_cleanupSlot h, if_neg (fun hc => hts hc.2.symm)]
      rw [hpte, reg_cleanupSlot_ne hts, reg_detach]
      simp [Ne.symm hts]

theorem reg_shmCleanup (h : Inv st) (p : Fin nproc) (s : Fin maxShm) :
    (st.shmCleanup p).reg s = (st.detach p s).reg s := by
  have hfold := reg_cleanup_fold (p := p) (s := s) (List.finRange maxShm) h
  simp only [List.mem_finRange, if_true] at hfold
  have heq : st.shmCleanup p = (List.finRange maxShm).foldl (State.cleanupSlot p) st := rfl
  rw [heq, hfold]

@[simp] theorem reg_setProc (q' : Proc) : (st.setProc p q').reg = st.reg := rfl

theorem reg_freeproc (h : Inv st) (p : Fin nproc) (s : Fin maxShm) :
    (st.freeproc p).reg s = (st.detach p s).reg s := by
  unfold State.freeproc
  rw [reg_setProc]
  split
  · exact reg_shmCleanup h p s
  · next hno =>
    have hnone : st.pte p s = none := by
      have htab : (st.proc p).pagetable = none := by simpa using hno
      simp [State.pte, htab]
    simp [State.detach, hnone]

theorem freeproc_same (h : Inv st) (hne : st.mappers s ≠ {p}) :
    (st.reg s).Same ((st.freeproc p).reg s) := by
  rw [reg_freeproc h]
  exact detach_kept h hne

/-! Regions through a step. -/

theorem reg_kfork (h : Inv st) (hp : (st.proc p).Alive) (frame tramp : Option Nat)
    (copy : Option (Nat → Nat)) : (st.kfork p frame tramp copy).reg = st.reg := by
  cases kfork_cases h hp frame tramp copy with
  | inl hsame => rw [hsame]
  | inr hnew =>
    obtain ⟨np, q', -, heq, -⟩ := hnew
    rw [heq]
    rfl

/-- `shm_create` changes a slot that was free, or nothing. -/
theorem shmCreate_cases (st : State) (key : Int) (kalloc : Option Nat) :
    (∃ s, st.findSlotByKey key = some s ∧ st.shmCreate key kalloc = ((s.val : Int), st)) ∨
    st.findSlotByKey key = none ∧
      (st.freeSlot = none ∧ st.shmCreate key kalloc = (-1, st) ∨
      ∃ s, st.freeSlot = some s ∧ (st.reg s).used = false ∧
        (kalloc = none ∧ st.shmCreate key kalloc = (-1, st.setReg s ⟨false, key, 0, 0⟩) ∨
        ∃ pa, kalloc = some pa ∧ st.shmCreate key kalloc = ((s.val : Int),
          { st.setReg s ⟨true, key, pa, 0⟩ with
            owner := Function.update st.owner pa .shm
            mem := Function.update st.mem pa fun _ => 0
            obtained := st.obtained ++ [pa] }))) := by
  unfold State.shmCreate
  cases hkey : st.findSlotByKey key with
  | some s => exact .inl ⟨s, rfl, rfl⟩
  | none =>
    refine .inr ⟨rfl, ?_⟩
    cases hfree : st.freeSlot with
    | none => exact .inl ⟨rfl, rfl⟩
    | some s =>
      refine .inr ⟨s, rfl, by simpa using freeSlot_some hfree, ?_⟩
      cases kalloc with
      | none => exact .inl ⟨rfl, rfl⟩
      | some pa => exact .inr ⟨pa, rfl, rfl⟩

/-- `shm_get` attaches the caller, or changes nothing. -/
theorem shmGet_cases (st : State) (p : Fin nproc) (key : Int) (mapOk : Bool) :
    (st.shmGet p key mapOk).2 = st ∨
    ∃ s, st.findSlotByKey key = some s ∧ st.pte p s = none ∧
      st.shmGet p key mapOk = (shmva s, (st.setPte p s (some (st.reg s).page)).setReg s
        { st.reg s with refCount := (st.reg s).refCount + 1 }) := by
  unfold State.shmGet
  cases hkey : st.findSlotByKey key with
  | none => exact .inl rfl
  | some s =>
    simp only
    split
    · exact .inl rfl
    · split
      · exact .inl rfl
      · next hno =>
        split
        · exact .inr ⟨s, rfl, by simpa using hno, rfl⟩
        · exact .inl rfl

theorem same_refl (r : Region) : r.Same r := ⟨rfl, rfl, rfl⟩

/-- A region in use stays, unless the step drops its last mapping. -/
theorem step_kept (h : Inv st) (hs : Step st a st') (hused : (st.reg s).used = true)
    (hno : ¬ st.Drops s a) : (st.reg s).Same (st'.reg s) := by
  cases hs with
  | @create p key kalloc _ _ =>
    have hne : ∀ t, (st.reg t).used = false → s ≠ t := by
      intro t ht he
      rw [he, ht] at hused
      cases hused
    obtain ⟨t, _, heq⟩ | ⟨_, ⟨_, heq⟩ | ⟨t, _, ht, ⟨_, heq⟩ | ⟨pa, _, heq⟩⟩⟩ :=
      shmCreate_cases st key kalloc
    · rw [heq]
      exact same_refl _
    · rw [heq]
      exact same_refl _
    · rw [heq, reg_setReg, if_neg (hne t ht)]
      exact same_refl _
    · have hreg : (st.setReg t ⟨true, key, pa, 0⟩).reg s = st.reg s := by
        rw [reg_setReg, if_neg (hne t ht)]
      rw [heq]
      change (st.reg s).Same ((st.setReg t ⟨true, key, pa, 0⟩).reg s)
      rw [hreg]
      exact same_refl _
  | @get p key mapOk _ =>
    cases shmGet_cases st p key mapOk with
    | inl heq =>
      rw [heq]
      exact same_refl _
    | inr hnew =>
      obtain ⟨t, _, _, heq⟩ := hnew
      rw [heq, reg_setReg]
      split
      · next hst =>
        subst hst
        exact ⟨rfl, rfl, rfl⟩
      · exact same_refl _
  | @close p key _ =>
    unfold State.shmClose
    cases hkey : st.findSlotByKey key with
    | none => exact same_refl _
    | some t =>
      by_cases hts : t = s
      · subst hts
        refine detach_kept h ?_
        intro hlast
        exact hno ⟨(findSlotByKey_some hkey).2, hlast⟩
      · simp only
        rw [reg_detach_ne hts]
        exact same_refl _
  | fork hp =>
    rw [reg_kfork h hp]
    exact same_refl _
  | reap => exact freeproc_same h hno
  | exit | heap | kalloc | kfree | store => exact same_refl _

theorem findSlotByKey_eq (h : Inv st) (hused : (st.reg s).used = true)
    (hkey : (st.reg s).key = key) : st.findSlotByKey key = some s := by
  cases hfind : st.findSlotByKey key with
  | none => exact absurd hkey (findSlotByKey_none hfind s hused)
  | some t =>
    obtain ⟨ht, hkt⟩ := findSlotByKey_some hfind
    rw [h.key_inj t s ht hused (hkt.trans hkey.symm)]

/-- The step that drops the last mapping ends the region. -/
theorem step_dropped (h : Inv st) (hs : Step st a st') (hused : (st.reg s).used = true)
    (hd : st.Drops s a) : (st'.reg s).used = false := by
  cases hs with
  | @close p key _ =>
    rw [State.shmClose, findSlotByKey_eq h hused hd.1]
    exact detach_last h hd.2
  | @reap p _ =>
    rw [reg_freeproc h]
    exact detach_last h hd
  | create | get | fork | exit | heap | kalloc | kfree | store => cases hd

/-- A region comes into use through `shm_create` only. -/
theorem step_new (h : Inv st) (hs : Step st a st') (hun : (st.reg s).used = false)
    (hused : (st'.reg s).used = true) : ∃ p key pa, a = .create p key (some pa) ∧
      st.findSlotByKey key = none ∧ (st.shmCreate key (some pa)).1 = (s.val : Int) ∧
      st'.reg s = ⟨true, key, pa, 0⟩ := by
  have hold : st'.reg s = st.reg s → False := by
    intro heq
    rw [heq, hun] at hused
    cases hused
  have hdetach : ∀ p, (st.detach p s).reg s = st.reg s := by
    intro p
    simp [State.detach, pte_unusedReg h (by rw [hun]; simp) p]
  cases hs with
  | @create p key kalloc _ _ =>
    obtain ⟨t, _, heq⟩ | ⟨hkey, ⟨_, heq⟩ | ⟨t, _, ht, ⟨_, heq⟩ | ⟨pa, hpa, heq⟩⟩⟩ :=
      shmCreate_cases st key kalloc
    · rw [heq] at hold
      exact absurd rfl hold
    · rw [heq] at hold
      exact absurd rfl hold
    · rw [heq, reg_setReg] at hused
      split at hused
      · cases hused
      · rw [hun] at hused
        cases hused
    · by_cases hst : s = t
      · subst hst
        subst hpa
        refine ⟨p, key, pa, rfl, hkey, by rw [heq], ?_⟩
        rw [heq]
        exact (reg_setReg _).trans (if_pos rfl)
      · rw [heq] at hold
        exact absurd ((reg_setReg _).trans (if_neg hst)) hold
  | @get p key mapOk _ =>
    cases shmGet_cases st p key mapOk with
    | inl heq =>
      rw [heq] at hold
      exact absurd rfl hold
    | inr hnew =>
      obtain ⟨t, hkey, _, heq⟩ := hnew
      have hst : s ≠ t := by
        intro he
        have := (findSlotByKey_some hkey).1
        rw [← he, hun] at this
        cases this
      rw [heq, reg_setReg, if_neg hst] at hold
      exact absurd rfl hold
  | @close p key _ =>
    unfold State.shmClose at hold
    cases hkey : st.findSlotByKey key with
    | none =>
      rw [hkey] at hold
      exact absurd rfl hold
    | some t =>
      rw [hkey] at hold
      by_cases hts : t = s
      · subst hts
        exact absurd (hdetach p) hold
      · exact absurd (reg_detach_ne hts) hold
  | fork hp =>
    rw [reg_kfork h hp] at hold
    exact absurd rfl hold
  | @reap p _ =>
    rw [reg_freeproc h] at hold
    exact absurd (hdetach p) hold
  | exit | heap | kalloc | kfree | store => exact absurd rfl hold

/-- A region in use after a step is new, or it was there and keeps its key. -/
theorem step_used (h : Inv st) (hs : Step st a st') (hused : (st'.reg s).used = true) :
    (st.reg s).used = true ∧ (st'.reg s).key = (st.reg s).key ∧ ¬ st.Drops s a ∨
      ∃ p key pa, a = .create p key (some pa) ∧ st.findSlotByKey key = none ∧
        (st.shmCreate key (some pa)).1 = (s.val : Int) ∧ st'.reg s = ⟨true, key, pa, 0⟩ := by
  cases hold : (st.reg s).used with
  | false => exact .inr (step_new h hs hold hused)
  | true =>
    have hno : ¬ st.Drops s a := by
      intro hd
      rw [step_dropped h hs hold hd] at hused
      cases hused
    exact .inl ⟨rfl, (step_kept h hs hold hno).2.1, hno⟩

/-! The bytes of a region. -/

/-- What a step writes to the page of slot `s`. -/
def stored (s : Fin maxShm) (bytes : Nat → UInt8) : Act → Nat → UInt8
  | .store _ t i v => if t = s then Function.update bytes i v else bytes
  | _ => bytes

/-- The page of slot `s` after the stores of a run, in their order. -/
def written (s : Fin maxShm) (tr : List Act) (bytes : Nat → UInt8) : Nat → UInt8 :=
  tr.foldl (stored s) bytes

theorem mem_detach (st : State) (p : Fin nproc) (s : Fin maxShm) :
    (st.detach p s).mem = st.mem := by
  unfold State.detach
  split
  · simp only
    split
    · rfl
    · rfl
  · rfl

theorem mem_cleanup_fold (p : Fin nproc) (ss : List (Fin maxShm)) (st : State) :
    (ss.foldl (State.cleanupSlot p) st).mem = st.mem := by
  induction ss generalizing st with
  | nil => rfl
  | cons t ss ih =>
    rw [List.foldl_cons, ih]
    unfold State.cleanupSlot
    split
    · exact mem_detach st p t
    · rfl

theorem mem_freeproc (st : State) (p : Fin nproc) : (st.freeproc p).mem = st.mem := by
  unfold State.freeproc
  change State.mem (ite _ _ _) = _
  split
  · exact mem_cleanup_fold p (List.finRange maxShm) st
  · rfl

theorem mem_step (h : Inv st) (hs : Step st a st') (hused : (st.reg s).used = true) :
    st'.mem (st.reg s).page = stored s (st.mem (st.reg s).page) a := by
  cases hs with
  | @create p key kalloc _ hk =>
    obtain ⟨t, _, heq⟩ | ⟨_, ⟨_, heq⟩ | ⟨t, _, _, ⟨_, heq⟩ | ⟨pa, hpa, heq⟩⟩⟩ :=
      shmCreate_cases st key kalloc
    · rw [heq]
      rfl
    · rw [heq]
      rfl
    · rw [heq]
      rfl
    · have hne : (st.reg s).page ≠ pa := by
        intro he
        have hown := h.owned s hused
        rw [he, (hk pa hpa).2] at hown
        cases hown
      rw [heq]
      exact Function.update_of_ne hne _ _
  | @get p key mapOk _ =>
    cases shmGet_cases st p key mapOk with
    | inl heq =>
      rw [heq]
      rfl
    | inr hnew =>
      obtain ⟨t, _, _, heq⟩ := hnew
      rw [heq]
      rfl
  | @close p key _ =>
    unfold State.shmClose
    cases st.findSlotByKey key with
    | none => rfl
    | some t =>
      simp only
      rw [mem_detach]
      rfl
  | @fork p frame tramp copy hp =>
    cases kfork_cases h hp frame tramp copy with
    | inl heq =>
      rw [heq]
      rfl
    | inr hnew =>
      obtain ⟨np, q', -, heq, -⟩ := hnew
      rw [heq]
      rfl
  | reap =>
    rw [mem_freeproc]
    rfl
  | @store p t i v pa _ hpte =>
    obtain ⟨ht, hpa⟩ := h.pte_page p t pa hpte
    subst hpa
    by_cases hts : t = s
    · subst hts
      simp [stored]
    · have hne : (st.reg s).page ≠ (st.reg t).page :=
        fun he => hts (h.page_inj t s ht hused he.symm)
      simp [stored, hts, hne]
  | exit | heap | kalloc | kfree => rfl

/-- Slot `s` is the region of `key` on page `pa`, and the page holds `bytes`. -/
structure State.Holds (st : State) (s : Fin maxShm) (key : Int) (pa : Nat) (bytes : Nat → UInt8) :
    Prop where
  used : (st.reg s).used = true
  key : (st.reg s).key = key
  page : (st.reg s).page = pa
  mem : st.mem pa = bytes

theorem holds_step {bytes : Nat → UInt8} (h : Inv st) (hs : Step st a st')
    (hh : st.Holds s key pa bytes) (hno : ¬ st.Drops s a) :
    st'.Holds s key pa (stored s bytes a) := by
  obtain ⟨hused, hkey, hpage⟩ := step_kept h hs hh.used hno
  refine ⟨hused.trans hh.used, hkey.trans hh.key, hpage.trans hh.page, ?_⟩
  have hmem := mem_step h hs hh.used
  rw [hh.page, hh.mem] at hmem
  exact hmem

/-- `shm_get` by process `p` finds the region: it returns the address of slot `s`, page `pa` is
there, and it holds `bytes`. -/
def State.Finds (st : State) (p : Fin nproc) (s : Fin maxShm) (key : Int) (pa : Nat)
    (bytes : Nat → UInt8) : Prop :=
  (st.shmGet p key true).1 = shmva s ∧ (st.shmGet p key true).2.pte p s = some pa ∧
    (st.shmGet p key true).2.mem pa = bytes

theorem finds_of_holds {bytes : Nat → UInt8} (h : Inv st) (hp : (st.proc p).Alive)
    (hh : st.Holds s key pa bytes) : st.Finds p s key pa bytes := by
  have hfind := findSlotByKey_eq h hh.used hh.key
  have hpage := h.page_ne s hh.used
  unfold State.Finds State.shmGet
  simp only [hfind, if_neg hpage, if_true]
  cases hpte : st.pte p s with
  | some pb =>
    have hpb := (h.pte_page p s pb hpte).2
    refine ⟨rfl, ?_, hh.mem⟩
    simp [hpte, hpb, hh.page]
  | none =>
    refine ⟨rfl, ?_, hh.mem⟩
    simp [pte_setPte (alive_table h hp), hh.page]

theorem shmCreate_ret {kalloc : Option Nat}
    (hret : (st.shmCreate key kalloc).1 = (s.val : Int)) :
    ((st.shmCreate key kalloc).2.reg s).used = true ∧
      ((st.shmCreate key kalloc).2.reg s).key = key := by
  obtain ⟨t, hkey, heq⟩ | ⟨_, ⟨_, heq⟩ | ⟨t, _, _, ⟨_, heq⟩ | ⟨pa, _, heq⟩⟩⟩ :=
    shmCreate_cases st key kalloc
  · rw [heq] at hret ⊢
    have hts : t = s := Fin.ext (Int.ofNat.inj hret)
    subst hts
    exact findSlotByKey_some hkey
  · rw [heq] at hret
    simp only at hret
    omega
  · rw [heq] at hret
    simp only at hret
    omega
  · rw [heq] at hret ⊢
    have hts : t = s := Fin.ext (Int.ofNat.inj hret)
    subst hts
    simp [State.setReg]

end

/-! The creator. -/

/-- The creator closes its region or exits. -/
def Act.Ends (creator : Fin nproc) (key : Int) : Act → Prop
  | .close p k => p = creator ∧ k = key
  | .exit p => p = creator
  | _ => False

/-- The steps until then. -/
def WantedStep (creator : Fin nproc) (key : Int) (st : State) (a : Act) (st' : State) : Prop :=
  Step st a st' ∧ ¬ a.Ends creator key

section
variable {st st' : State} {p q : Fin nproc} {s : Fin maxShm} {key : Int} {pa : Nat} {a : Act}

theorem state_detach (st : State) (p q : Fin nproc) (s : Fin maxShm) :
    ((st.detach p s).proc q).state = (st.proc q).state := by
  have hset : ((st.setPte p s none).proc q).state = (st.proc q).state := setPte_state none
  unfold State.detach
  by_cases hm : (st.pte p s).isSome = true
  · rw [if_pos hm]
    simp only
    by_cases hlast : (st.reg s).dec.refCount = 0 ∧ (st.reg s).dec.page ≠ 0
    · rw [if_pos hlast]
      exact hset
    · rw [if_neg hlast]
      exact hset
  · rw [if_neg hm]

theorem state_cleanup_fold (p q : Fin nproc) (ss : List (Fin maxShm)) (st : State) :
    ((ss.foldl (State.cleanupSlot p) st).proc q).state = (st.proc q).state := by
  induction ss generalizing st with
  | nil => rfl
  | cons t ss ih =>
    rw [List.foldl_cons, ih]
    unfold State.cleanupSlot
    split
    · exact state_detach st p q t
    · rfl

theorem state_freeproc (hq : q ≠ p) : ((st.freeproc p).proc q).state = (st.proc q).state := by
  have hclean : ((st.shmCleanup p).proc q).state = (st.proc q).state := by
    have heq : st.shmCleanup p = (List.finRange maxShm).foldl (State.cleanupSlot p) st := rfl
    rw [heq, state_cleanup_fold]
  unfold State.freeproc State.setProc
  dsimp only
  rw [Function.update_of_ne hq]
  by_cases hpt : (st.proc p).pagetable.isSome = true
  · rw [if_pos hpt]
    exact hclean
  · rw [if_neg hpt]

/-- A process lives until it exits. -/
theorem alive_step (h : Inv st) (hs : Step st a st') (hq : (st.proc q).Alive) (ha : a ≠ .exit q) :
    (st'.proc q).Alive := by
  have hkeep : (st'.proc q).state = (st.proc q).state → (st'.proc q).Alive := by
    intro heq
    unfold Proc.Alive
    rwa [heq]
  cases hs with
  | @create p key kalloc _ _ =>
    refine hkeep ?_
    obtain ⟨t, _, heq⟩ | ⟨_, ⟨_, heq⟩ | ⟨t, _, _, ⟨_, heq⟩ | ⟨pa, _, heq⟩⟩⟩ :=
      shmCreate_cases st key kalloc
    · rw [heq]
    · rw [heq]
    · rw [heq]
      rfl
    · rw [heq]
      rfl
  | @get p key mapOk _ =>
    refine hkeep ?_
    cases shmGet_cases st p key mapOk with
    | inl heq => rw [heq]
    | inr hnew =>
      obtain ⟨t, _, _, heq⟩ := hnew
      rw [heq]
      exact setPte_state _
  | @close p key _ =>
    refine hkeep ?_
    unfold State.shmClose
    cases st.findSlotByKey key with
    | none => rfl
    | some t => exact state_detach st p q t
  | @fork p frame tramp copy hp =>
    refine hkeep ?_
    cases kfork_cases h hp frame tramp copy with
    | inl heq => rw [heq]
    | inr hnew =>
      obtain ⟨np, q', hun, heq, -⟩ := hnew
      have hne : q ≠ np := by
        rintro rfl
        exact hq.1 hun
      rw [heq, State.setProc]
      dsimp only
      rw [Function.update_of_ne hne]
  | @exit p _ =>
    have hne : q ≠ p := by
      rintro rfl
      exact ha rfl
    refine hkeep ?_
    unfold State.setProc
    dsimp only
    rw [Function.update_of_ne hne]
  | @reap p hz =>
    have hne : q ≠ p := by
      rintro rfl
      exact hq.2 hz
    exact hkeep (state_freeproc hne)
  | @heap p user sz _ _ =>
    refine hkeep ?_
    unfold State.setProc
    dsimp only
    by_cases hne : q = p
    · rw [hne, Function.update_self]
    · rw [Function.update_of_ne hne]
  | kalloc | kfree | store => exact hq

/-- Once its last mapping has gone, `shm_get` finds the region no more. -/
theorem not_finds_of_drops {bytes : Nat → UInt8} (h : Inv st) (hs : Step st a st')
    (hused : (st.reg s).used = true) (hkey : (st.reg s).key = key) (hd : st.Drops s a) :
    ¬ st'.Finds p s key pa bytes := by
  have hun := step_dropped h hs hused hd
  have hnone : st'.findSlotByKey key = none := by
    cases hfind : st'.findSlotByKey key with
    | none => rfl
    | some t =>
      obtain ⟨ht, hkt⟩ := findSlotByKey_some hfind
      cases step_used h hs ht with
      | inl hold =>
        obtain ⟨ht', hkt', -⟩ := hold
        have hts : t = s := h.key_inj t s ht' hused (by rw [← hkt', hkt, hkey])
        rw [hts, hun] at ht
        cases ht
      | inr hnew =>
        obtain ⟨_, _, _, rfl, -⟩ := hnew
        cases hd
  intro hf
  have hva := hf.1
  unfold State.shmGet shmva shmBase at hva
  rw [hnone] at hva
  simp only at hva
  omega

end

/-- Until its creator closes it or exits, a created region lasts as long as no other process that
detaches from it is the only one attached: `shm_get` finds it on the page of its creation, with
all stores to it. The first such detaching ends it, also when the creator has yet to attach. -/
theorem created_region_lasts_iff (frame tramp : Nat) (owner : Nat → Owner)
    (mem : Nat → Nat → UInt8) {tr₀ : List Act} {st₀ : State}
    (hr₀ : Run Step (State.init frame tramp owner mem) tr₀ st₀) {creator : Fin nproc} {key : Int}
    {kalloc : Option Nat} {st₁ : State} (hcreate : Step st₀ (.create creator key kalloc) st₁)
    {s : Fin maxShm} (hret : (st₀.shmCreate key kalloc).1 = (s.val : Int)) {tr : List Act}
    {st : State} (hr : Run (Guarded (WantedStep creator key) fun st a => ¬ st.Drops s a) st₁ tr st) :
    (∀ p, (st.proc p).Alive → st.Finds p s key (st₁.reg s).page
      (written s tr (st₁.mem (st₁.reg s).page))) ∧
    ∀ a st', WantedStep creator key st a st' →
      ((∀ p, (st'.proc p).Alive → st'.Finds p s key (st₁.reg s).page
        (written s (tr ++ [a]) (st₁.mem (st₁.reg s).page))) ↔ ¬ st.Drops s a) := by
  have h₀ : Inv st₀ := hr₀.invariant (inv_init frame tramp owner mem)
    fun _ _ _ hp hs => (inv_step hp hs).1
  have h₁ : Inv st₁ := (inv_step h₀ hcreate).1
  have halive : (st₁.proc creator).Alive := by
    have hc : (st₀.proc creator).Alive := by
      cases hcreate with
      | create hc => exact hc
    exact alive_step h₀ hcreate hc (by simp)
  have hnew : (st₁.reg s).used = true ∧ (st₁.reg s).key = key := by
    cases hcreate with
    | create => exact shmCreate_ret hret
  have hends : ∀ {a}, ¬ Act.Ends creator key a → a ≠ .exit creator := by
    rintro a hno rfl
    exact hno rfl
  have hall : Inv st ∧ (st.proc creator).Alive ∧ st.Holds s key (st₁.reg s).page
      (written s tr (st₁.mem (st₁.reg s).page)) := by
    refine hr.history (P := fun tr st => Inv st ∧ (st.proc creator).Alive ∧
      st.Holds s key (st₁.reg s).page (written s tr (st₁.mem (st₁.reg s).page)))
      ⟨h₁, halive, hnew.1, hnew.2, rfl, rfl⟩ ?_
    intro tr u a v _ hu hs
    refine ⟨(inv_step hu.1 hs.1.1).1, alive_step hu.1 hs.1.1 hu.2.1 (hends hs.1.2), ?_⟩
    rw [written, List.foldl_append]
    exact holds_step hu.1 hs.1.1 hu.2.2 hs.2
  obtain ⟨hinv, hc, hholds⟩ := hall
  refine ⟨fun p hp => finds_of_holds hinv hp hholds, ?_⟩
  intro a st' hs
  constructor
  · intro hf hd
    have hc' := alive_step hinv hs.1 hc (hends hs.2)
    exact not_finds_of_drops hinv hs.1 hholds.used hholds.key hd (hf creator hc')
  · intro hno p hp
    have hholds' := holds_step hinv hs.1 hholds hno
    rw [written, List.foldl_append]
    exact finds_of_holds (inv_step hinv hs.1).1 hp hholds'

/-- `init` creates the region of key 5; its child attaches, `init` attaches, the child detaches,
and `init` finds the region until it closes it. -/
theorem created_region_lasts_parent_last : ∃ st₁ tr st st',
    Step State.booted (.create 0 5 (some 100)) st₁ ∧ Run Step st₁ tr st ∧
      tr = [.fork 0 (some 3) (some 2) (some fun _ => 7), .get 1 5 true, .store 1 0 0 104,
        .get 0 5 true, .close 1 5] ∧
      st.Finds 0 0 5 100 (Function.update (fun _ => 0) 0 104) ∧ Step st (.close 0 5) st' := by
  have hcreate : Step State.booted (.create 0 5 (some 100)) _ :=
    .create (by decide) (by intro pa hpa; cases hpa; exact ⟨by decide, rfl⟩)
  have h1 : Run (Guarded (WantedStep 0 5) fun st a => ¬ st.Drops 0 a)
      (State.booted.shmCreate 5 (some 100)).2
      [.fork 0 (some 3) (some 2) (some fun _ => 7)] _ :=
    Run.single ⟨⟨.fork (by decide), id⟩, id⟩
  have h2 := h1.snoc (a := .get 1 5 true) ⟨⟨.get (by decide), id⟩, id⟩
  have h3 := h2.snoc (a := .store 1 0 0 104)
    ⟨⟨.store (by decide) (show _ = some 100 by decide), id⟩, id⟩
  have h4 := h3.snoc (a := .get 0 5 true) ⟨⟨.get (by decide), id⟩, id⟩
  have hr : Run (Guarded (WantedStep 0 5) fun st a => ¬ st.Drops 0 a) _ (_ ++ [.close 1 5]) _ :=
    h4.snoc ⟨⟨.close (by decide), by rintro ⟨he, -⟩; cases he⟩,
      not_drops_close (q := 0) (by decide) (by decide)⟩
  have hlasts := created_region_lasts_iff 1 2 (fun _ => .free) (fun _ _ => 0) .nil hcreate
    (s := 0) rfl hr
  exact ⟨_, _, _, _, hcreate, hr.mono fun _ _ _ hs => hs.1.1, rfl, hlasts.1 0 (by decide),
    .close (by decide)⟩

/-- The child attaches and detaches before `init` has attached, and the region is gone. -/
theorem region_lost_by_child : ∃ st, Run Step State.booted
      [.create 0 5 (some 100), .fork 0 (some 3) (some 2) (some fun _ => 7), .get 1 5 true,
        .close 1 5] st ∧
    (st.proc 0).Alive ∧ (st.shmGet 0 5 true).1 = 0 := by
  have h1 : Run Step State.booted [.create 0 5 (some 100)] _ :=
    Run.single (.create (by decide) (by intro pa hpa; cases hpa; exact ⟨by decide, rfl⟩))
  have h2 := h1.snoc (a := .fork 0 (some 3) (some 2) (some fun _ => 7)) (.fork (by decide))
  have h3 := h2.snoc (a := .get 1 5 true) (.get (by decide))
  have h4 := h3.snoc (a := .close 1 5) (.close (by decide))
  exact ⟨_, h4, by decide, by decide⟩

/-! The users of a region. -/

/-- The processes, not reaped yet, that have created or attached a region of each key. -/
abbrev Users := Int → Finset (Fin nproc)

def State.nextUsers (st : State) (u : Users) : Act → Users
  | .create p key kalloc =>
    if st.findSlotByKey key = none ∧ 0 ≤ (st.shmCreate key kalloc).1 then
      Function.update u key (insert p (u key)) else u
  | .get p key mapOk =>
    if (st.shmGet p key mapOk).1 ≠ 0 then Function.update u key (insert p (u key)) else u
  | .reap p => fun key => (u key).erase p
  | _ => u

structure Tracked where
  st : State
  users : Users

def TrackedStep (x : Tracked) (a : Act) (y : Tracked) : Prop :=
  Step x.st a y.st ∧ y.users = x.st.nextUsers x.users a

/-- No process is reaped that alone has used a region which nobody has attached. -/
def Tracked.Attached (x : Tracked) : Act → Prop
  | .reap p => ∀ s, (x.st.reg s).used = true → x.st.mappers s = ∅ →
      ∃ q ∈ x.users (x.st.reg s).key, q ≠ p
  | _ => True

/-- Without users there are no slots, the pages that no slot holds have gone back to `kfree`, and
`shm_create` succeeds once nobody uses shared memory. -/
structure Tracked.Reclaimed (x : Tracked) : Prop where
  slots : ∀ key, x.users key = ∅ → ∀ s, (x.st.reg s).used = true → (x.st.reg s).key ≠ key
  pages : ∀ pa, (∀ s, (x.st.reg s).used = true → (x.st.reg s).page ≠ pa) →
    x.st.obtained.count pa = x.st.freed.count pa
  serves : (∀ key, x.users key = ∅) → ∀ key pa, 0 ≤ (x.st.shmCreate key (some pa)).1

/-- What runs keep while no unattached region loses its last user. -/
structure Tracked.Inv (x : Tracked) : Prop where
  inv : Shm.Inv x.st
  used : ∀ s, (x.st.reg s).used = true → (x.users (x.st.reg s).key).Nonempty
  attached : ∀ p s, (x.st.pte p s).isSome → p ∈ x.users (x.st.reg s).key

section
variable {st st' : State} {p q : Fin nproc} {s : Fin maxShm} {a : Act} {u : Users} {x y : Tracked}

/-- Users stay until they are reaped. -/
theorem mem_nextUsers {key : Int} (hq : q ∈ u key) (ha : a ≠ .reap q) :
    q ∈ st.nextUsers u a key := by
  have hinsert : ∀ k p, q ∈ Function.update u k (insert p (u k)) key := by
    intro k p
    by_cases hk : key = k
    · subst hk
      simp [hq]
    · simpa [hk] using hq
  cases a with
  | create p k kalloc =>
    simp only [State.nextUsers]
    split
    · exact hinsert k p
    · exact hq
  | get p k mapOk =>
    simp only [State.nextUsers]
    split
    · exact hinsert k p
    · exact hq
  | reap p =>
    refine Finset.mem_erase.mpr ⟨?_, hq⟩
    intro he
    exact ha (by rw [he])
  | close | fork | exit | heap | kalloc | kfree | store => exact hq

theorem pte_freeproc (h : Inv st) (hq : ((st.freeproc p).pte q s).isSome) :
    (st.pte q s).isSome ∧ q ≠ p := by
  have hne : q ≠ p := by
    intro he
    subst he
    rw [State.freeproc, pte_setProc, if_pos rfl] at hq
    cases hq
  refine ⟨?_, hne⟩
  rw [State.freeproc, pte_setProc, if_neg hne] at hq
  split at hq
  · rwa [(cleaning_shmCleanup h p).1.pte q s hne] at hq
  · exact hq

/-- A mapping after a step was there before it, or `shm_get` has just made it. -/
theorem step_pte (h : Inv st) (hs : Step st a st') (hq : (st'.pte q s).isSome) :
    (st.pte q s).isSome ∧ a ≠ .reap q ∨
      ∃ mapOk, a = .get q (st.reg s).key mapOk ∧ (st.shmGet q (st.reg s).key mapOk).1 ≠ 0 := by
  cases hs with
  | @create p key kalloc _ _ =>
    left
    refine ⟨?_, by simp⟩
    obtain ⟨t, _, heq⟩ | ⟨_, ⟨_, heq⟩ | ⟨t, _, _, ⟨_, heq⟩ | ⟨pa, _, heq⟩⟩⟩ :=
      shmCreate_cases st key kalloc
    all_goals
      rw [heq] at hq
      exact hq
  | @get p key mapOk hp =>
    cases shmGet_cases st p key mapOk with
    | inl heq =>
      rw [heq] at hq
      exact .inl ⟨hq, by simp⟩
    | inr hnew =>
      obtain ⟨t, hkey, _, heq⟩ := hnew
      rw [heq, pte_setReg, pte_setPte (alive_table h hp)] at hq
      by_cases hc : q = p ∧ s = t
      · obtain ⟨rfl, rfl⟩ := hc
        have hk := (findSlotByKey_some hkey).2
        right
        refine ⟨mapOk, by rw [hk], ?_⟩
        rw [hk, heq]
        simp [shmva, shmBase]
      · rw [if_neg hc] at hq
        exact .inl ⟨hq, by simp⟩
  | @close p key _ =>
    left
    refine ⟨?_, by simp⟩
    unfold State.shmClose at hq
    cases hkey : st.findSlotByKey key with
    | none =>
      rw [hkey] at hq
      exact hq
    | some t =>
      rw [hkey] at hq
      simp only at hq
      rw [pte_detach] at hq
      split at hq
      · cases hq
      · exact hq
  | @fork p frame tramp copy hp =>
    left
    refine ⟨?_, by simp⟩
    cases kfork_cases h hp frame tramp copy with
    | inl heq => rwa [heq] at hq
    | inr hnew =>
      obtain ⟨np, q', _, heq, hwin, _⟩ := hnew
      rw [heq, pte_setProc] at hq
      split at hq
      · rw [hwin s] at hq
        cases hq
      · exact hq
  | @exit p _ =>
    left
    refine ⟨?_, by simp⟩
    rw [pte_setProc] at hq
    split at hq
    · next he =>
      rw [he]
      exact hq
    · exact hq
  | @reap p _ =>
    obtain ⟨hold, hne⟩ := pte_freeproc h hq
    refine .inl ⟨hold, ?_⟩
    intro he
    exact hne (Act.reap.inj he).symm
  | @heap p user sz _ _ =>
    left
    refine ⟨?_, by simp⟩
    have hva : ¬ shmva s < shmBase := by
      unfold shmva
      omega
    rw [pte_setProc] at hq
    split at hq
    · next he =>
      subst he
      simpa [State.pte, Option.bind_map, hva] using hq
    · exact hq
  | kalloc | kfree | store => exact .inl ⟨hq, by simp⟩

/-- Whoever loses its last mapping by the reaping of `p`, a region that stays has another user. -/
theorem Tracked.Inv.other_user (h : x.Inv) (hok : x.Attached (.reap p))
    (hused : (x.st.reg s).used = true) (hno : x.st.mappers s ≠ {p}) :
    ∃ q ∈ x.users (x.st.reg s).key, q ≠ p := by
  by_cases hempty : x.st.mappers s = ∅
  · exact hok s hused hempty
  · by_contra hall
    have hsub : ∀ q ∈ x.st.mappers s, q = p := by
      intro q hq
      by_contra hne
      exact hall ⟨q, h.attached q s (mem_mappers.mp hq), hne⟩
    exact hno (Finset.eq_singleton_iff_nonempty_unique_mem.mpr
      ⟨Finset.nonempty_iff_ne_empty.mpr hempty, hsub⟩)

theorem tracked_step (h : x.Inv) (hs : TrackedStep x a y) (hok : x.Attached a) : y.Inv := by
  obtain ⟨hstep, husers⟩ := hs
  have hinv := (inv_step h.inv hstep).1
  refine ⟨hinv, ?_, ?_⟩
  · intro s hused
    cases step_used h.inv hstep hused with
    | inr hnew =>
      obtain ⟨p, key, pa, rfl, hfind, hret, hreg⟩ := hnew
      have hadd : y.users key = insert p (x.users key) := by
        simp [husers, State.nextUsers, hfind, hret]
      rw [hreg, hadd]
      exact Finset.insert_nonempty ..
    | inl hold =>
      obtain ⟨hused, hkey, hno⟩ := hold
      -- A user that the step does not reap.
      have hq : ∃ q ∈ x.users (x.st.reg s).key, a ≠ .reap q := by
        by_cases ha : ∃ p, a = .reap p
        · obtain ⟨p, rfl⟩ := ha
          obtain ⟨q, hq, hne⟩ := h.other_user hok hused hno
          exact ⟨q, hq, fun he => hne (Act.reap.inj he).symm⟩
        · obtain ⟨q, hq⟩ := h.used s hused
          exact ⟨q, hq, fun he => ha ⟨q, he⟩⟩
      obtain ⟨q, hq, ha⟩ := hq
      rw [hkey, husers]
      exact ⟨q, mem_nextUsers hq ha⟩
  · intro q s hpte
    obtain ⟨pa, hpa⟩ := Option.isSome_iff_exists.mp hpte
    have hkey : (y.st.reg s).key = (x.st.reg s).key := by
      cases step_used h.inv hstep (hinv.pte_page q s pa hpa).1 with
      | inl hold => exact hold.2.1
      | inr hnew =>
        -- A new region has no mapping yet.
        obtain ⟨p, key, pa, rfl, hfind, hret, hreg⟩ := hnew
        cases step_pte h.inv hstep hpte with
        | inr hget =>
          obtain ⟨_, he, _⟩ := hget
          cases he
        | inl hold =>
          obtain ⟨pb, hpb⟩ := Option.isSome_iff_exists.mp hold.1
          have hzero := hinv.refCount s (by rw [hreg])
          rw [hreg] at hzero
          have hmem := mem_mappers.mpr hpte
          have hcard := Finset.card_pos.mpr ⟨q, hmem⟩
          simp only at hzero
          omega
    rw [hkey, husers]
    cases step_pte h.inv hstep hpte with
    | inl hold => exact mem_nextUsers (h.attached q s hold.1) hold.2
    | inr hget =>
      obtain ⟨mapOk, rfl, hret⟩ := hget
      simp [State.nextUsers, hret]

theorem Tracked.Inv.reclaimed (h : x.Inv) : x.Reclaimed := by
  refine ⟨?_, ?_, ?_⟩
  · intro key hnone s hused hkey
    have hex := h.used s hused
    rw [hkey, hnone] at hex
    exact Finset.not_nonempty_empty hex
  · intro pa hpa
    refine h.inv.once_dead pa ?_
    intro hl
    obtain ⟨s, hused, heq⟩ := hl
    exact hpa s hused heq
  · intro hnone key pa
    have hun : ∀ s, (x.st.reg s).used = false := by
      intro s
      by_contra hused
      have hex := h.used s (by simpa using hused)
      rw [hnone] at hex
      exact Finset.not_nonempty_empty hex
    obtain ⟨t, _, heq⟩ | ⟨_, ⟨hfull, _⟩ | ⟨t, _, _, ⟨hno, _⟩ | ⟨pb, _, heq⟩⟩⟩ :=
      shmCreate_cases x.st key (some pa)
    · rw [heq]
      exact Int.natCast_nonneg _
    · have := List.find?_eq_none.mp hfull 0 (List.mem_finRange 0)
      simp [hun] at this
    · cases hno
    · rw [heq]
      exact Int.natCast_nonneg _

/-- The reaping of the only user leaks a region that nobody has attached. -/
theorem not_reclaimed (h : x.Inv) (hs : TrackedStep x a y) (hno : ¬ x.Attached a) :
    ¬ y.Reclaimed := by
  intro hrec
  obtain ⟨hstep, husers⟩ := hs
  cases a with
  | reap p =>
    simp only [Tracked.Attached, not_forall, not_exists, not_and, not_not] at hno
    obtain ⟨s, hused, hempty, hall⟩ := hno
    have hnd : ¬ x.st.Drops s (.reap p) := by
      intro hd
      rw [State.Drops, hempty] at hd
      exact Finset.singleton_ne_empty p hd.symm
    obtain ⟨hused', hkey, _⟩ := step_kept h.inv hstep hused hnd
    refine hrec.slots (x.st.reg s).key ?_ s (hused'.trans hused) hkey
    rw [husers]
    refine Finset.eq_empty_of_forall_notMem ?_
    intro q hq
    obtain ⟨hne, hq⟩ := Finset.mem_erase.mp hq
    exact hne (hall q hq)
  | create | get | close | fork | exit | heap | kalloc | kfree | store => exact hno trivial

theorem tracked_init (frame tramp : Nat) (owner : Nat → Owner) (mem : Nat → Nat → UInt8) :
    Tracked.Inv ⟨.init frame tramp owner mem, fun _ => ∅⟩ where
  inv := inv_init frame tramp owner mem
  used := by
    intro s hused
    cases hused
  attached := by
    intro p s hpte
    rw [pte_init] at hpte
    cases hpte

end

/-- Shared memory is reclaimed when its users are gone as long as no process is reaped that alone
has used a region which nobody has attached; such a reaping leaks the region. -/
theorem reclaimed_iff (frame tramp : Nat) (owner : Nat → Owner) (mem : Nat → Nat → UInt8)
    {tr : List Act} {x : Tracked} (hr : Run (Guarded TrackedStep Tracked.Attached)
      ⟨.init frame tramp owner mem, fun _ => ∅⟩ tr x) :
    x.Reclaimed ∧ ∀ a y, TrackedStep x a y → (y.Reclaimed ↔ x.Attached a) :=
  hr.guarded_iff (I := Tracked.Inv) (tracked_init frame tramp owner mem)
    (fun _ _ _ h hs hok => tracked_step h hs hok) (fun _ h => h.reclaimed)
    fun _ _ _ h hs hno => not_reclaimed h hs hno

/-- A child creates and attaches a region and exits. -/
theorem reclaimed_after_child : ∃ x : Tracked,
    Run TrackedStep ⟨State.booted, fun _ => ∅⟩
      [.fork 0 (some 3) (some 2) (some fun _ => 7), .create 1 5 (some 100), .get 1 5 true, .exit 1,
        .reap 1] x ∧ x.Reclaimed := by
  have h1 : Run (Guarded TrackedStep Tracked.Attached) ⟨State.booted, fun _ => ∅⟩
      [.fork 0 (some 3) (some 2) (some fun _ => 7)] ⟨_, _⟩ :=
    Run.single ⟨⟨.fork (by decide), rfl⟩, trivial⟩
  have h2 : Run (Guarded TrackedStep Tracked.Attached) _ (_ ++ [.create 1 5 (some 100)]) ⟨_, _⟩ :=
    h1.snoc ⟨⟨.create (by decide) (by intro pa hpa; cases hpa; exact ⟨by decide, rfl⟩), rfl⟩,
      trivial⟩
  have h3 : Run (Guarded TrackedStep Tracked.Attached) _ (_ ++ [.get 1 5 true]) ⟨_, _⟩ :=
    h2.snoc ⟨⟨.get (by decide), rfl⟩, trivial⟩
  have h4 : Run (Guarded TrackedStep Tracked.Attached) _ (_ ++ [.exit 1]) ⟨_, _⟩ :=
    h3.snoc ⟨⟨.exit (by decide), rfl⟩, trivial⟩
  have h5 : Run (Guarded TrackedStep Tracked.Attached) _ (_ ++ [.reap 1]) ⟨_, _⟩ :=
    h4.snoc ⟨⟨.reap (by decide), rfl⟩, by
      intro s hused hempty
      have hs : s = 0 := (by decide : ∀ s, (State.reg _ s).used = true → s = 0) s hused
      subst hs
      exact absurd hempty
        (Finset.ne_empty_of_mem (mem_mappers.mpr (by decide : (State.pte _ 1 0).isSome)))⟩
  exact ⟨_, h5.mono fun _ _ _ hs => hs.1,
    (reclaimed_iff 1 2 (fun _ => .free) (fun _ _ => 0) h5).1⟩

/-- A child creates a region, and exits without attaching it. -/
theorem unattached_region_leaks : ∃ x : Tracked,
    Run TrackedStep ⟨State.booted, fun _ => ∅⟩
      [.fork 0 (some 3) (some 2) (some fun _ => 7), .create 1 5 (some 100), .exit 1, .reap 1] x ∧
    x.users 5 = ∅ ∧ (x.st.reg 0).used = true ∧ (x.st.reg 0).key = 5 ∧ ¬ x.Reclaimed := by
  have h1 : Run TrackedStep ⟨State.booted, fun _ => ∅⟩
      [.fork 0 (some 3) (some 2) (some fun _ => 7)] ⟨_, _⟩ :=
    Run.single ⟨.fork (by decide), rfl⟩
  have h2 : Run TrackedStep _ (_ ++ [.create 1 5 (some 100)]) ⟨_, _⟩ :=
    h1.snoc ⟨.create (by decide) (by intro pa hpa; cases hpa; exact ⟨by decide, rfl⟩), rfl⟩
  have h3 : Run TrackedStep _ (_ ++ [.exit 1]) ⟨_, _⟩ := h2.snoc ⟨.exit (by decide), rfl⟩
  have h4 : Run TrackedStep _ (_ ++ [.reap 1]) ⟨_, _⟩ := h3.snoc ⟨.reap (by decide), rfl⟩
  have hinv : Inv (Tracked.mk _ _).st := h3.invariant (P := fun x => Inv x.st)
    (inv_init 1 2 (fun _ => .free) fun _ _ => 0) fun _ _ _ h hs => (inv_step h hs.1).1
  have hkept := freeproc_same (p := 1) (s := 0) hinv (by decide)
  have hused : (State.reg _ 0).used = true := hkept.1.trans (by decide)
  have hkey : (State.reg _ 0).key = 5 := hkept.2.1.trans (by decide)
  refine ⟨_, h4, by decide, hused, hkey, ?_⟩
  intro hrec
  exact hrec.slots 5 (by decide) 0 hused hkey

end Xv6Labs.Shm
