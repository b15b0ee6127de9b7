import Xv6Labs.Ipc.MboxTable

/-! `mbox_create` step by step. It holds no lock while it looks its key up, tests `used` and
stores `used` and `key`, so other callers may be anywhere in it at the same time. -/
namespace Xv6Labs.Mbox
open Kit

/-- Where a call of `mbox_create` is. -/
inductive CreatePc where
  /-- `find_id_by_key` loads `used` of entry `i`. -/
  | find (i : Nat)
  /-- It was set; now for the key. -/
  | compare (i : Nat)
  /-- The second loop loads `used`. -/
  | scan (i : Nat)
  /-- It was clear; `used = 1` comes next. -/
  | mark (i : Nat)
  | name (i : Nat)
  /-- The section with the lock of the entry held. -/
  | reset (i : Nat)
  deriving DecidableEq

/-- What a step leads to: the next place, or out of the call. -/
inductive Made where
  | at (pc : CreatePc)
  | ret (id : Int)
  deriving DecidableEq

/-- The next load or store of `mbox_create(key)`. -/
def createStep (box : Nat → Mailbox) (key : Int) : CreatePc → Made × (Nat → Mailbox)
  | .find i =>
    if maxMbox ≤ i then (.at (.scan 0), box)
    else if (box i).used then (.at (.compare i), box)
    else (.at (.find (i+1)), box)
  | .compare i => if (box i).key = key then (.ret i, box) else (.at (.find (i+1)), box)
  | .scan i =>
    if maxMbox ≤ i then (.ret (-1), box)
    else if (box i).used then (.at (.scan (i+1)), box)
    else (.at (.mark i), box)
  | .mark i => (.at (.name i), Function.update box i { box i with used := true })
  | .name i => (.at (.reset i), Function.update box i { box i with key := key })
  | .reset i => (.ret i, Function.update box i { box i with
      head := 0, tail := 0, count := 0, closed := false })

/-- The entry that a step marks is still free. -/
def CreatePc.Free (box : Nat → Mailbox) : CreatePc → Prop
  | .mark i => (box i).used = false
  | _ => True

theorem createStep_used {box : Nat → Mailbox} {key : Int} {pc : CreatePc} {i : Nat}
    (hu : (box i).used = true) : ((createStep box key pc).2 i).used = true := by
  have hset : ∀ j b, b.used = true ∨ b.used = (box j).used →
      (Function.update box j b i).used = true := by
    intro j b hb
    by_cases he : i = j
    · subst he
      rw [Function.update_self]
      cases hb with
      | inl hb => exact hb
      | inr hb => exact hb.trans hu
    · rwa [Function.update_of_ne he]
  cases pc with
  | find j =>
    simp only [createStep]
    split
    · exact hu
    · split <;> exact hu
  | compare j =>
    simp only [createStep]
    split <;> exact hu
  | scan j =>
    simp only [createStep]
    split
    · exact hu
    · split <;> exact hu
  | mark j => exact hset j _ (.inl rfl)
  | name j => exact hset j _ (.inr rfl)
  | reset j => exact hset j _ (.inr rfl)

/-- A call that runs from `pc` to its return without another process in between. -/
inductive Creates (key : Int) : CreatePc → (Nat → Mailbox) → Int → (Nat → Mailbox) → Prop
  | ret {pc : CreatePc} {box box' : Nat → Mailbox} {id : Int}
      (h : createStep box key pc = (.ret id, box')) (hfree : pc.Free box) :
      Creates key pc box id box'
  | next {pc pc' : CreatePc} {box box' box'' : Nat → Mailbox} {id : Int}
      (h : createStep box key pc = (.at pc', box')) (hfree : pc.Free box)
      (hc : Creates key pc' box' id box'') : Creates key pc box id box''

section
variable {box box' : Nat → Mailbox} {key id : Int} {i j : Nat}

/-- `find_id_by_key` passes an entry. -/
theorem Creates.pass (hi : i < maxMbox) (hno : (box i).used = true → (box i).key ≠ key)
    (h : Creates key (.find (i+1)) box id box') : Creates key (.find i) box id box' := by
  cases hu : (box i).used with
  | true =>
    have hload : createStep box key (.find i) = (.at (.compare i), box) := by
      rw [createStep, if_neg (Nat.not_le.mpr hi), if_pos hu]
    have hcmp : createStep box key (.compare i) = (.at (.find (i+1)), box) := by
      rw [createStep, if_neg (hno hu)]
    exact .next hload trivial (.next hcmp trivial h)
  | false =>
    refine .next ?_ trivial h
    rw [createStep, if_neg (Nat.not_le.mpr hi), hu, if_neg Bool.false_ne_true]

theorem creates_found (hj : j < maxMbox) (hu : (box j).used = true) (hk : (box j).key = key)
    (hno : ∀ k < j, (box k).used = true → (box k).key ≠ key) :
    ∀ n i, j = i + n → Creates key (.find i) box j box := by
  intro n
  induction n with
  | zero =>
    rintro i rfl
    have hload : createStep box key (.find j) = (.at (.compare j), box) := by
      rw [createStep, if_neg (Nat.not_le.mpr hj), if_pos hu]
    refine .next hload trivial (.ret ?_ trivial)
    rw [createStep, if_pos hk]
  | succ n ih =>
    intro i hi
    exact .pass (by omega) (hno i (by omega)) (ih (i+1) (by omega))

theorem creates_absent (hno : ∀ k < maxMbox, (box k).used = true → (box k).key ≠ key)
    (hs : Creates key (.scan 0) box id box') :
    ∀ n i, maxMbox ≤ i + n → Creates key (.find i) box id box' := by
  intro n
  induction n with
  | zero =>
    intro i hi
    refine .next ?_ trivial hs
    exact if_pos hi
  | succ n ih =>
    intro i hi
    by_cases hlt : i < maxMbox
    · exact .pass hlt (hno i hlt) (ih (i+1) (by omega))
    · refine .next ?_ trivial hs
      rw [createStep, if_pos (Nat.not_lt.mp hlt)]

theorem Creates.skip (hi : i < maxMbox) (hu : (box i).used = true)
    (h : Creates key (.scan (i+1)) box id box') : Creates key (.scan i) box id box' := by
  refine .next ?_ trivial h
  rw [createStep, if_neg (Nat.not_le.mpr hi), if_pos hu]

theorem creates_claimed (hj : j < maxMbox) (hfree : (box j).used = false)
    (hno : ∀ k < j, (box k).used = true) : ∀ n i, j = i + n →
      Creates key (.scan i) box j (Function.update box j ((box j).claimed key)) := by
  intro n
  induction n with
  | zero =>
    rintro i rfl
    have hload : createStep box key (.scan j) = (.at (.mark j), box) := by
      rw [createStep, if_neg (Nat.not_le.mpr hj), hfree, if_neg Bool.false_ne_true]
    have hclaim : Creates key (.mark j) box j (Function.update box j ((box j).claimed key)) := by
      refine .next (show createStep _ _ _ = (.at (.name j), _) from rfl) hfree
        (.next (show createStep _ _ _ = (.at (.reset j), _) from rfl) trivial (.ret ?_ trivial))
      simp [createStep, Mailbox.claimed]
    exact .next hload trivial hclaim
  | succ n ih =>
    intro i hi
    exact .skip (by omega) (hno i (by omega)) (ih (i+1) (by omega))

theorem creates_full (hno : ∀ k < maxMbox, (box k).used = true) :
    ∀ n i, maxMbox ≤ i + n → Creates key (.scan i) box (-1) box := by
  intro n
  induction n with
  | zero =>
    intro i hi
    exact .ret (if_pos hi) trivial
  | succ n ih =>
    intro i hi
    by_cases hlt : i < maxMbox
    · exact .skip hlt (hno i hlt) (ih (i+1) (by omega))
    · refine .ret ?_ trivial
      rw [createStep, if_pos (Nat.not_lt.mp hlt)]

/-- Without another caller in between, `mbox_create` is one step of the table. -/
theorem creates_mboxCreate (s : State) (key : Int) :
    Creates key (.find 0) s.box (s.mboxCreate key).1 (s.mboxCreate key).2.box := by
  unfold State.mboxCreate
  cases hfind : s.findIdByKey key with
  | some j =>
    obtain ⟨hp, hj, hno⟩ := List.find?_range_eq_some.mp hfind
    rw [Bool.and_eq_true, decide_eq_true_eq] at hp
    refine creates_found (List.mem_range.mp hj) hp.1 hp.2 (fun k hk hu he => ?_) j 0 (by omega)
    have hk := hno k hk
    rw [hu, he] at hk
    simp at hk
  | none =>
    have hno : ∀ k < maxMbox, (s.box k).used = true → (s.box k).key ≠ key := by
      intro k hk hu he
      have := List.find?_eq_none.mp hfind k (List.mem_range.mpr hk)
      simp [hu, he] at this
    cases hfree : s.findUnused with
    | some j =>
      obtain ⟨hp, hj, hused⟩ := List.find?_range_eq_some.mp hfree
      refine creates_absent hno ?_ maxMbox 0 (by omega)
      refine creates_claimed (List.mem_range.mp hj) (by simpa using hp) (fun k hk => ?_) j 0
        (by omega)
      simpa using hused k hk
    | none =>
      refine creates_absent hno ?_ maxMbox 0 (by omega)
      refine creates_full (fun k hk => ?_) maxMbox 0 (by omega)
      simpa using List.find?_eq_none.mp hfree k (List.mem_range.mpr hk)

end

/-! Many callers. -/

/-- A call under way. -/
structure Creating where
  key : Int
  pc : CreatePc

def CreatePc.marked : CreatePc → Option Nat
  | .name i => some i
  | .reset i => some i
  | _ => none

/-- What the call relies on. -/
def Creating.Ok (box : Nat → Mailbox) (m : Creating) : Prop :=
  match m.pc with
  | .find _ | .scan _ => True
  | .compare i => i < maxMbox ∧ (box i).used = true
  | .mark i => i < maxMbox
  | .name i => i < maxMbox ∧ (box i).used = true ∧ (box i).key = 0
  | .reset i => i < maxMbox ∧ (box i).used = true ∧ (box i).key = m.key

/-- No two calls have marked one entry, and an entry has no key before it has been marked. -/
structure Claims {ι : Type*} (making : ι → Option Creating) (box : Nat → Mailbox) : Prop where
  blank : ∀ i, (box i).used = false → (box i).key = 0
  ok : ∀ c m, making c = some m → m.Ok box
  alone : ∀ c c' m m' i, making c = some m → making c' = some m' → m.pc.marked = some i →
    m'.pc.marked = some i → c = c'

section
variable {ι : Type*} [DecidableEq ι] {making : ι → Option Creating} {box box' : Nat → Mailbox}
  {c : ι} {m m' : Creating} {o : Option Creating} {i : Nat} {id : Int} {r : Made}

theorem Creating.Ok.mono (h : m.Ok box) (hu : ∀ j, (box j).used = true → (box' j).used = true)
    (hk : ∀ j, m.pc.marked = some j → (box' j).key = (box j).key) : m.Ok box' := by
  obtain ⟨key, pc⟩ := m
  cases pc with
  | find | scan => trivial
  | compare j => exact ⟨h.1, hu j h.2⟩
  | mark j => exact h
  | name j | reset j => exact ⟨h.1, hu j h.2.1, (hk j rfl).trans h.2.2⟩

/-- The call of `c` goes on to `o`, and the table changes. -/
theorem Claims.set (h : Claims making box) (hblank : ∀ i, (box' i).used = false → (box' i).key = 0)
    (hu : ∀ j, (box j).used = true → (box' j).used = true)
    (hk : ∀ c' m', c' ≠ c → making c' = some m' → ∀ j, m'.pc.marked = some j →
      (box' j).key = (box j).key)
    (hok : ∀ m', o = some m' → m'.Ok box')
    (halone : ∀ m' j, o = some m' → m'.pc.marked = some j → ∀ c' m'', c' ≠ c →
      making c' = some m'' → m''.pc.marked ≠ some j) :
    Claims (Function.update making c o) box' where
  blank := hblank
  ok c' m' hm' := by
    by_cases he : c' = c
    · rw [he, Function.update_self] at hm'
      exact hok m' hm'
    · rw [Function.update_of_ne he] at hm'
      exact (h.ok c' m' hm').mono hu (hk c' m' he hm')
  alone c1 c2 m1 m2 j h1 h2 hj1 hj2 := by
    by_cases he1 : c1 = c
    · by_cases he2 : c2 = c
      · rw [he1, he2]
      · rw [he1, Function.update_self] at h1
        rw [Function.update_of_ne he2] at h2
        exact absurd hj2 (halone m1 j h1 hj1 c2 m2 he2 h2)
    · rw [Function.update_of_ne he1] at h1
      by_cases he2 : c2 = c
      · rw [he2, Function.update_self] at h2
        exact absurd hj1 (halone m2 j h2 hj2 c1 m1 he1 h1)
      · rw [Function.update_of_ne he2] at h2
        exact h.alone c1 c2 m1 m2 j h1 h2 hj1 hj2

/-- The table keeps which entries are in use, and their keys. -/
def SameKeys (box box' : Nat → Mailbox) : Prop :=
  ∀ i, (box' i).used = (box i).used ∧ (box' i).key = (box i).key

theorem effect_sameKeys {obs : Obs} (h : Effect box obs box') (ho : ∀ r, obs ≠ .created r) :
    SameKeys box box' := by
  intro i
  cases h with
  | slept | sendFailed | recvFailed | notClosed => exact ⟨rfl, rfl⟩
  | found ret => exact absurd rfl (ho ret)
  | created j => exact absurd rfl (ho j)
  | sent j | received j | closed j =>
    by_cases he : i = j
    · subst he
      rw [Function.update_self]
      exact ⟨rfl, rfl⟩
    · rw [Function.update_of_ne he]
      exact ⟨rfl, rfl⟩

theorem Claims.same (h : Claims making box) (hs : SameKeys box box')
    (hok : ∀ m', o = some m' → m'.Ok box')
    (halone : ∀ m' j, o = some m' → m'.pc.marked = some j → ∀ c' m'', c' ≠ c →
      making c' = some m'' → m''.pc.marked ≠ some j) :
    Claims (Function.update making c o) box' := by
  refine h.set (fun i hi => ?_) (fun j hj => ?_) (fun c' m' _ _ j _ => (hs j).2) hok halone
  · rw [(hs i).1] at hi
    rw [(hs i).2]
    exact h.blank i hi
  · rw [(hs j).1]
    exact hj

omit [DecidableEq ι] in
theorem Claims.keep (h : Claims making box) (hs : SameKeys box box') : Claims making box' where
  blank i hi := by
    rw [(hs i).1] at hi
    rw [(hs i).2]
    exact h.blank i hi
  ok c m hm := (h.ok c m hm).mono (fun j hj => (hs j).1.trans hj) fun j _ => (hs j).2
  alone := h.alone

def Made.next (key : Int) : Made → Option Creating
  | .at pc => some ⟨key, pc⟩
  | .ret _ => none

def Made.obs : Made → Option Obs
  | .at _ => none
  | .ret id => some (.created id)

/-- What a step of a call for `key` does not touch: the entries under other keys. -/
def KeepsNamed (key : Int) (box box' : Nat → Mailbox) : Prop :=
  ∀ i, (box i).used = true → (box i).key ≠ 0 → (box' i).used = true ∧ (box' i).key = (box i).key ∧
    ((box i).key ≠ key → box' i = box i)

/-- The steps that store nothing. -/
theorem createStep_load {key : Int} {pc : CreatePc} (hok : Creating.Ok box ⟨key, pc⟩)
    (hpc : ∀ i, pc ≠ .mark i ∧ pc ≠ .name i ∧ pc ≠ .reset i)
    (hs : createStep box key pc = (r, box')) :
    box' = box ∧ ∀ m', r.next key = some m' → m'.Ok box ∧ m'.pc.marked = none := by
  cases pc with
  | find i =>
    simp only [createStep] at hs
    split at hs
    · cases hs
      exact ⟨rfl, fun m' hm' => by cases hm'; exact ⟨trivial, rfl⟩⟩
    · next hi =>
      split at hs
      · next hu =>
        cases hs
        exact ⟨rfl, fun m' hm' => by cases hm'; exact ⟨⟨Nat.not_le.mp hi, hu⟩, rfl⟩⟩
      · cases hs
        exact ⟨rfl, fun m' hm' => by cases hm'; exact ⟨trivial, rfl⟩⟩
  | compare i =>
    simp only [createStep] at hs
    split at hs
    · cases hs
      exact ⟨rfl, fun m' hm' => by cases hm'⟩
    · cases hs
      exact ⟨rfl, fun m' hm' => by cases hm'; exact ⟨trivial, rfl⟩⟩
  | scan i =>
    simp only [createStep] at hs
    split at hs
    · cases hs
      exact ⟨rfl, fun m' hm' => by cases hm'⟩
    · next hi =>
      split at hs
      · cases hs
        exact ⟨rfl, fun m' hm' => by cases hm'; exact ⟨trivial, rfl⟩⟩
      · cases hs
        exact ⟨rfl, fun m' hm' => by cases hm'; exact ⟨Nat.not_le.mp hi, rfl⟩⟩
  | mark i => exact absurd rfl (hpc i).1
  | name i => exact absurd rfl (hpc i).2.1
  | reset i => exact absurd rfl (hpc i).2.2

theorem Claims.load (h : Claims making box) (ho : ∀ m', o = some m' → m'.Ok box ∧
    m'.pc.marked = none) : Claims (Function.update making c o) box := by
  refine h.same (fun i => ⟨rfl, rfl⟩) (fun m' hm' => (ho m' hm').1) ?_
  intro m' j hm' hj
  rw [(ho m' hm').2] at hj
  cases hj

theorem Claims.mark {key : Int} (h : Claims making box) (hm : making c = some ⟨key, .mark i⟩)
    (hfree : (box i).used = false) : Claims (Function.update making c (some ⟨key, .name i⟩))
      (Function.update box i { box i with used := true }) := by
  have hunmarked : ∀ c' m', making c' = some m' → m'.pc.marked ≠ some i := by
    rintro c' ⟨key', pc'⟩ hm' hj
    have hok := h.ok c' _ hm'
    cases pc' with
    | name j | reset j =>
      cases hj
      have hu := hok.2.1
      rw [hfree] at hu
      cases hu
    | find | compare | scan | mark => cases hj
  refine h.set ?_ ?_ ?_ ?_ ?_
  · intro j hj
    by_cases he : j = i
    · rw [he, Function.update_self] at hj
      cases hj
    · rw [Function.update_of_ne he] at hj ⊢
      exact h.blank j hj
  · intro j hj
    by_cases he : j = i
    · rw [he, Function.update_self]
    · rwa [Function.update_of_ne he]
  · intro c' m' _ hm' j hj
    have he : j ≠ i := by
      rintro rfl
      exact hunmarked c' m' hm' hj
    rw [Function.update_of_ne he]
  · intro m' hm'
    cases hm'
    have hi : i < maxMbox := h.ok c _ hm
    refine ⟨hi, ?_, ?_⟩
    · rw [Function.update_self]
    · rw [Function.update_self]
      exact h.blank i hfree
  · intro m' j hm' hj c' m'' _ hm''
    cases hm'
    cases hj
    exact hunmarked c' m'' hm''

theorem Claims.name {key : Int} (h : Claims making box) (hm : making c = some ⟨key, .name i⟩) :
    Claims (Function.update making c (some ⟨key, .reset i⟩))
      (Function.update box i { box i with key := key }) := by
  obtain ⟨hi, hu, -⟩ := h.ok c _ hm
  have hothers : ∀ c' m', c' ≠ c → making c' = some m' → m'.pc.marked ≠ some i :=
    fun c' m' hne hm' hj => hne (h.alone c' c m' _ i hm' hm hj rfl)
  refine h.set ?_ ?_ ?_ ?_ ?_
  · intro j hj
    by_cases he : j = i
    · rw [he, Function.update_self, hu] at hj
      cases hj
    · rw [Function.update_of_ne he] at hj ⊢
      exact h.blank j hj
  · intro j hj
    by_cases he : j = i
    · rw [he, Function.update_self]
      exact hu
    · rwa [Function.update_of_ne he]
  · intro c' m' hne hm' j hj
    have he : j ≠ i := by
      rintro rfl
      exact hothers c' m' hne hm' hj
    rw [Function.update_of_ne he]
  · intro m' hm'
    cases hm'
    refine ⟨hi, ?_, ?_⟩
    · rw [Function.update_self]
      exact hu
    · rw [Function.update_self]
  · intro m' j hm' hj c' m'' hne hm''
    cases hm'
    cases hj
    exact hothers c' m'' hne hm''

/-- A step of a call, if the entry that it marks is still free. -/
theorem Claims.step (h : Claims making box) (hm : making c = some m) (hfree : m.pc.Free box)
    (hs : createStep box m.key m.pc = (r, box')) :
    Claims (Function.update making c (r.next m.key)) box' ∧ KeepsNamed m.key box box' := by
  have hok := h.ok c m hm
  obtain ⟨key, pc⟩ := m
  cases pc with
  | find i | compare i | scan i =>
    obtain ⟨rfl, hnext⟩ := createStep_load hok (fun _ => by simp) hs
    exact ⟨h.load hnext, fun j hu _ => ⟨hu, rfl, fun _ => rfl⟩⟩
  | mark i =>
    cases hs
    have hfree : (box i).used = false := hfree
    refine ⟨h.mark hm hfree, fun j hu hk => ?_⟩
    have he : j ≠ i := by
      rintro rfl
      rw [hfree] at hu
      cases hu
    rw [Function.update_of_ne he]
    exact ⟨hu, rfl, fun _ => rfl⟩
  | name i =>
    cases hs
    refine ⟨h.name hm, fun j hu hk => ?_⟩
    have he : j ≠ i := by
      rintro rfl
      exact hk hok.2.2
    rw [Function.update_of_ne he]
    exact ⟨hu, rfl, fun _ => rfl⟩
  | reset i =>
    cases hs
    have hsame : SameKeys box (Function.update box i { box i with
        head := 0, tail := 0, count := 0, closed := false }) := by
      intro j
      by_cases he : j = i
      · rw [he, Function.update_self]
        exact ⟨rfl, rfl⟩
      · rw [Function.update_of_ne he]
        exact ⟨rfl, rfl⟩
    refine ⟨h.same hsame (fun m' hm' => by cases hm') (fun m' j hm' => by cases hm'), ?_⟩
    intro j hu hk
    refine ⟨(hsame j).1.trans hu, (hsame j).2, fun hne => ?_⟩
    have he : j ≠ i := by
      rintro rfl
      exact hne hok.2.2
    rw [Function.update_of_ne he]

omit [DecidableEq ι] in
theorem Claims.ret (h : Claims making box) (hm : making c = some m) (hi : id = i)
    (hs : createStep box m.key m.pc = (.ret id, box')) :
    i < maxMbox ∧ (box' i).used = true ∧ (box' i).key = m.key := by
  have hok := h.ok c m hm
  obtain ⟨key, pc⟩ := m
  cases pc with
  | find j =>
    simp only [createStep] at hs
    split at hs
    · cases hs
    · split at hs <;> cases hs
  | compare j =>
    simp only [createStep] at hs
    split at hs
    · next hk =>
      obtain ⟨hid, rfl⟩ := Prod.mk.inj hs
      have he : j = i := Int.ofNat.inj ((Made.ret.inj hid).trans hi)
      subst he
      exact ⟨hok.1, hok.2, hk⟩
    · cases hs
  | scan j =>
    simp only [createStep] at hs
    split at hs
    · have hid := Made.ret.inj (Prod.mk.inj hs).1
      omega
    · split at hs <;> cases hs
  | mark | name => cases hs
  | reset j =>
    obtain ⟨hid, rfl⟩ := Prod.mk.inj hs
    have he : j = i := Int.ofNat.inj ((Made.ret.inj hid).trans hi)
    subst he
    rw [Function.update_self]
    exact hok

end

end Xv6Labs.Mbox
