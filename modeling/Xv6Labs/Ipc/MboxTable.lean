import Mathlib.Data.Finset.Card
import Xv6Labs.Ipc.Mbox

/-! The table of mailboxes over its whole life: which keys have an entry, and when `mbox_create`
gives a caller an open mailbox. Entries are claimed and never released. -/
namespace Xv6Labs.Mbox
open Kit

/-- The entry that `mbox_create` claims. -/
def Mailbox.claimed (b : Mailbox) (key : Int) : Mailbox :=
  { b with used := true, key := key, head := 0, tail := 0, count := 0, closed := false }

section
variable {s t : State} {a : Action} {o : Obs} {box box' : Nat → Mailbox} {i : Nat} {key : Int}

/-- The three outcomes of `mbox_create`: the key has an entry, a free entry is claimed, or the
table is full. -/
theorem mboxCreate_cases (s : State) (key : Int) :
    (∃ i < maxMbox, (s.box i).used = true ∧ (s.box i).key = key ∧
      s.mboxCreate key = ((i : Int), s)) ∨
    (∀ i < maxMbox, (s.box i).used = true → (s.box i).key ≠ key) ∧
      ((∃ i < maxMbox, (s.box i).used = false ∧
        s.mboxCreate key = ((i : Int), s.setBox i ((s.box i).claimed key))) ∨
      (∀ i < maxMbox, (s.box i).used = true) ∧ s.mboxCreate key = (-1, s)) := by
  unfold State.mboxCreate
  cases hfind : s.findIdByKey key with
  | some i =>
    have hp := List.find?_some hfind
    have hlt := List.mem_range.mp (List.mem_of_find?_eq_some hfind)
    rw [Bool.and_eq_true, decide_eq_true_eq] at hp
    exact .inl ⟨i, hlt, hp.1, hp.2, rfl⟩
  | none =>
    refine .inr ⟨?_, ?_⟩
    · intro i hi hu hk
      have := List.find?_eq_none.mp hfind i (List.mem_range.mpr hi)
      simp [hu, hk] at this
    · cases hfree : s.findUnused with
      | some i =>
        have hp := List.find?_some hfree
        have hlt := List.mem_range.mp (List.mem_of_find?_eq_some hfree)
        exact .inl ⟨i, hlt, by simpa using hp, rfl⟩
      | none =>
        refine .inr ⟨?_, rfl⟩
        intro i hi
        have := List.find?_eq_none.mp hfree i (List.mem_range.mpr hi)
        simpa using this

/-- The id that `mbox_create` returns is that of an entry for the key. -/
theorem mboxCreate_id (h : (s.mboxCreate key).1 = (i : Int)) : i < maxMbox ∧
    ((s.mboxCreate key).2.box i).used = true ∧ ((s.mboxCreate key).2.box i).key = key := by
  cases mboxCreate_cases s key with
  | inl hfound =>
    obtain ⟨j, hj, hu, hk, heq⟩ := hfound
    rw [heq] at h ⊢
    have he : j = i := Int.ofNat.inj h
    subst he
    exact ⟨hj, hu, hk⟩
  | inr hnew =>
    cases hnew.2 with
    | inl hclaim =>
      obtain ⟨j, hj, -, heq⟩ := hclaim
      rw [heq] at h ⊢
      have he : j = i := Int.ofNat.inj h
      subst he
      simp [hj, State.setBox, Mailbox.claimed]
    | inr hfull =>
      rw [hfull.2] at h
      omega

theorem mboxCreate_room (h : ∃ i < maxMbox, (s.box i).used = false) (key : Int) :
    ∃ i : Nat, (s.mboxCreate key).1 = i := by
  cases mboxCreate_cases s key with
  | inl hfound =>
    obtain ⟨i, -, -, -, heq⟩ := hfound
    exact ⟨i, by rw [heq]⟩
  | inr hnew =>
    cases hnew.2 with
    | inl hclaim =>
      obtain ⟨i, -, -, heq⟩ := hclaim
      exact ⟨i, by rw [heq]⟩
    | inr hfull =>
      obtain ⟨c, hc, hfree⟩ := h
      have := hfull.1 c hc
      rw [hfree] at this
      cases this

/-- An entry in use stays in use, under its key. -/
theorem effect_key (h : Effect box o box') (hu : (box i).used = true) :
    (box' i).used = true ∧ (box' i).key = (box i).key := by
  refine ⟨effect_used h i hu, ?_⟩
  cases h with
  | slept | sendFailed | recvFailed | found | notClosed => rfl
  | created j key hj =>
    have hne : i ≠ j := by
      intro he
      rw [he, hj] at hu
      cases hu
    rw [Function.update_of_ne hne]
  | sent j msg hj | received j hj | closed j hj =>
    by_cases he : i = j
    · subst he
      simp [Mailbox.put, Mailbox.take]
    · rw [Function.update_of_ne he]

/-- Only `mbox_create` brings entries into use. -/
theorem effect_unused (h : Effect box o box') (ho : ∀ r, o ≠ .created r)
    (hu : (box' i).used = true) : (box i).used = true := by
  cases h with
  | slept | sendFailed | recvFailed | notClosed => exact hu
  | found r => exact absurd rfl (ho r)
  | created j key hj => exact absurd rfl (ho j)
  | sent j msg hj | received j hj | closed j hj =>
    by_cases he : i = j
    · subst he
      exact hj
    · rwa [Function.update_of_ne he] at hu

/-- The result of `mbox_create` is seen at its own steps only. -/
theorem exec_created (h : s.exec a = some (o, t)) (ha : ∀ key, a ≠ .create key) (r : Int) :
    o ≠ .created r := by
  intro ho
  subst ho
  cases a with
  | create key => exact ha key rfl
  | close id => cases h
  | send p id msg =>
    simp only [State.exec] at h
    split at h
    · split at h
      · cases h
      · unfold State.endSend at h
        split at h <;> cases h
    · cases h
  | recv p id =>
    simp only [State.exec] at h
    split at h
    · split at h
      · cases h
      · unfold State.endRecv at h
        split at h <;> cases h
    · cases h
  | resume p =>
    simp only [State.exec] at h
    split at h
    · unfold State.endSend at h
      split at h <;> cases h
    · unfold State.endRecv at h
      split at h <;> cases h
    · cases h

end

/-! Runs, with the calls as labels. -/

def ActStep (s : State) (a : Action) (t : State) : Prop := ∃ o, s.exec a = some (o, t)

/-- The keys that `mbox_create` was called with. -/
def createdKeys (tr : List Action) : Finset Int :=
  (tr.filterMap fun a => match a with
    | .create key => some key
    | _ => none).toFinset

/-- What every run keeps of the table: one entry for each key, all of them asked for, and a key
that was asked for is missing only from a full table. -/
structure Keyed (tr : List Action) (s : State) : Prop where
  calls : s.CallsOk
  inj : ∀ i < maxMbox, ∀ j < maxMbox, (s.box i).used = true → (s.box j).used = true →
    (s.box i).key = (s.box j).key → i = j
  asked : ∀ i < maxMbox, (s.box i).used = true → (s.box i).key ∈ createdKeys tr
  there : ∀ key ∈ createdKeys tr, (∃ i < maxMbox, (s.box i).used = true ∧ (s.box i).key = key) ∨
    ∀ i < maxMbox, (s.box i).used = true

section
variable {s t : State} {a : Action} {tr : List Action}

theorem createdKeys_create (tr : List Action) (key : Int) :
    createdKeys (tr ++ [.create key]) = insert key (createdKeys tr) := by
  ext k
  simp [createdKeys]

theorem createdKeys_other (tr : List Action) (ha : ∀ key, a ≠ .create key) :
    createdKeys (tr ++ [a]) = createdKeys tr := by
  cases a with
  | create key => exact absurd rfl (ha key)
  | send | recv | close | resume =>
    ext k
    simp [createdKeys]

theorem keyed_init : Keyed [] State.init where
  calls := by
    intro p c h
    cases h
  inj := by
    intro i _ j _ hu
    cases hu
  asked := by
    intro i _ hu
    cases hu
  there := by
    intro key hk
    simp [createdKeys] at hk

/-- The table stays as it is: the key has its entry, or there is no room for it. -/
theorem keyed_create_same (h : Keyed tr s) {key : Int}
    (hkey : (∃ i < maxMbox, (s.box i).used = true ∧ (s.box i).key = key) ∨
      ∀ i < maxMbox, (s.box i).used = true) : Keyed (tr ++ [.create key]) s := by
  refine ⟨h.calls, h.inj, ?_, ?_⟩
  · intro i hi hu
    rw [createdKeys_create]
    exact Finset.mem_insert_of_mem (h.asked i hi hu)
  · intro k hk
    rw [createdKeys_create] at hk
    cases Finset.mem_insert.mp hk with
    | inl he =>
      rw [he]
      exact hkey
    | inr hold => exact h.there k hold

/-- A free entry is claimed for a key that has none. -/
theorem keyed_create_claimed (h : Keyed tr s) {key : Int} {c : Nat} (hc : c < maxMbox)
    (hfree : (s.box c).used = false)
    (hno : ∀ i < maxMbox, (s.box i).used = true → (s.box i).key ≠ key)
    (hcalls : (s.setBox c ((s.box c).claimed key)).CallsOk) :
    Keyed (tr ++ [.create key]) (s.setBox c ((s.box c).claimed key)) := by
  have hself : ((s.setBox c ((s.box c).claimed key)).box c) = (s.box c).claimed key := by
    simp [State.setBox]
  have hother : ∀ i, i ≠ c → (s.setBox c ((s.box c).claimed key)).box i = s.box i := by
    intro i hi
    simp [State.setBox, hi]
  refine ⟨hcalls, ?_, ?_, ?_⟩
  · intro i hi j hj hui huj hk
    by_cases hic : i = c
    · by_cases hjc : j = c
      · rw [hic, hjc]
      · rw [hic, hself, hother j hjc] at hk
        rw [hother j hjc] at huj
        exact absurd hk.symm (hno j hj huj)
    · rw [hother i hic] at hui hk
      by_cases hjc : j = c
      · rw [hjc, hself] at hk
        exact absurd hk (hno i hi hui)
      · rw [hother j hjc] at huj hk
        exact h.inj i hi j hj hui huj hk
  · intro i hi hu
    rw [createdKeys_create]
    by_cases hic : i = c
    · rw [hic, hself]
      exact Finset.mem_insert_self ..
    · rw [hother i hic] at hu ⊢
      exact Finset.mem_insert_of_mem (h.asked i hi hu)
  · intro k hk
    rw [createdKeys_create] at hk
    left
    cases Finset.mem_insert.mp hk with
    | inl he =>
      refine ⟨c, hc, ?_⟩
      rw [hself, he]
      exact ⟨rfl, rfl⟩
    | inr hold =>
      cases h.there k hold with
      | inl hentry =>
        obtain ⟨i, hi, hu, hki⟩ := hentry
        have hic : i ≠ c := by
          intro he
          rw [he, hfree] at hu
          cases hu
        refine ⟨i, hi, ?_⟩
        rw [hother i hic]
        exact ⟨hu, hki⟩
      | inr hfull =>
        have := hfull c hc
        rw [hfree] at this
        cases this

theorem keyed_create (h : Keyed tr s) (key : Int) :
    Keyed (tr ++ [.create key]) (s.mboxCreate key).2 := by
  have hstep : Step s (.created (s.mboxCreate key).1) (s.mboxCreate key).2 := ⟨.create key, rfl⟩
  have hcalls := callsOk_step h.calls hstep
  cases mboxCreate_cases s key with
  | inl hfound =>
    obtain ⟨i, hi, hu, hk, heq⟩ := hfound
    rw [heq]
    exact keyed_create_same h (.inl ⟨i, hi, hu, hk⟩)
  | inr hnew =>
    obtain ⟨hno, hcase⟩ := hnew
    cases hcase with
    | inr hfull =>
      rw [hfull.2]
      exact keyed_create_same h (.inr hfull.1)
    | inl hclaim =>
      obtain ⟨c, hc, hfree, heq⟩ := hclaim
      rw [heq] at hcalls ⊢
      exact keyed_create_claimed h hc hfree hno hcalls

theorem keyed_step (h : Keyed tr s) (hs : ActStep s a t) : Keyed (tr ++ [a]) t := by
  obtain ⟨o, hs⟩ := hs
  by_cases hcr : ∃ key, a = .create key
  · obtain ⟨key, rfl⟩ := hcr
    cases hs
    exact keyed_create h key
  · have ha : ∀ key, a ≠ .create key := fun key he => hcr ⟨key, he⟩
    have heff := step_effect h.calls ⟨a, hs⟩
    have hno := exec_created hs ha
    have hback : ∀ i, (t.box i).used = true →
        (s.box i).used = true ∧ (t.box i).key = (s.box i).key := by
      intro i hu
      have hu0 := effect_unused heff hno hu
      exact ⟨hu0, (effect_key heff hu0).2⟩
    refine ⟨callsOk_step h.calls ⟨a, hs⟩, ?_, ?_, ?_⟩
    · intro i hi j hj hui huj hk
      obtain ⟨hui, hki⟩ := hback i hui
      obtain ⟨huj, hkj⟩ := hback j huj
      exact h.inj i hi j hj hui huj (by rw [← hki, ← hkj, hk])
    · intro i hi hu
      obtain ⟨hu, hk⟩ := hback i hu
      rw [createdKeys_other tr ha, hk]
      exact h.asked i hi hu
    · intro k hk
      rw [createdKeys_other tr ha] at hk
      cases h.there k hk with
      | inl hentry =>
        obtain ⟨i, hi, hu, hki⟩ := hentry
        obtain ⟨hu', hk'⟩ := effect_key heff hu
        exact .inl ⟨i, hi, hu', by rw [hk', hki]⟩
      | inr hfull => exact .inr fun i hi => (effect_key heff (hfull i hi)).1

theorem keyed_run (h : Run ActStep State.init tr s) : Keyed tr s :=
  h.history keyed_init fun _ _ _ _ _ hk hs => keyed_step hk hs

/-- A key that has an entry gets that entry. -/
theorem Keyed.mboxCreate_eq (h : Keyed tr s) {i : Nat} {key : Int} (hi : i < maxMbox)
    (hu : (s.box i).used = true) (hk : (s.box i).key = key) :
    s.mboxCreate key = ((i : Int), s) := by
  cases mboxCreate_cases s key with
  | inl hfound =>
    obtain ⟨j, hj, huj, hkj, heq⟩ := hfound
    rw [heq, h.inj j hj i hi huj hu (hkj.trans hk.symm)]
  | inr hnew => exact absurd hk (hnew.1 i hi hu)

/-- The used entries are as many as the keys that were asked for, up to the size of the table. -/
theorem Keyed.exists_unused_iff (h : Keyed tr s) :
    (∃ i < maxMbox, (s.box i).used = false) ↔ (createdKeys tr).card < maxMbox := by
  let used := (Finset.range maxMbox).filter fun i => (s.box i).used = true
  have hinj : Set.InjOn (fun i => (s.box i).key) used := by
    intro i hi j hj hk
    have hi := Finset.mem_filter.mp hi
    have hj := Finset.mem_filter.mp hj
    rw [Finset.mem_range] at hi hj
    exact h.inj i hi.1 j hj.1 hi.2 hj.2 hk
  have hsub : used.image (fun i => (s.box i).key) ⊆ createdKeys tr := by
    intro k hk
    obtain ⟨i, hi, rfl⟩ := Finset.mem_image.mp hk
    simp only [used, Finset.mem_filter, Finset.mem_range] at hi
    exact h.asked i hi.1 hi.2
  have hle : used.card ≤ (createdKeys tr).card := by
    rw [← Finset.card_image_of_injOn hinj]
    exact Finset.card_le_card hsub
  constructor
  · intro hfree
    obtain ⟨c, hc, hu⟩ := hfree
    have hall : createdKeys tr ⊆ used.image (fun i => (s.box i).key) := by
      intro k hk
      cases h.there k hk with
      | inl hentry =>
        obtain ⟨i, hi, hui, rfl⟩ := hentry
        exact Finset.mem_image_of_mem _ (by simp [used, hi, hui])
      | inr hfull =>
        have := hfull c hc
        rw [hu] at this
        cases this
    have hlt : used.card < (Finset.range maxMbox).card := by
      apply Finset.card_lt_card
      refine ⟨Finset.filter_subset _ _, ?_⟩
      intro hss
      have := hss (Finset.mem_range.mpr hc)
      simp [used, hu] at this
    calc (createdKeys tr).card
        ≤ (used.image fun i => (s.box i).key).card := Finset.card_le_card hall
      _ ≤ used.card := Finset.card_image_le
      _ < maxMbox := by simpa using hlt
  · intro hlt
    by_contra hno
    have hfull : used = Finset.range maxMbox := by
      apply Finset.filter_true_of_mem
      intro i hi
      by_contra hu
      exact hno ⟨i, Finset.mem_range.mp hi, by simpa using hu⟩
    rw [hfull, Finset.card_range] at hle
    omega

end

/-! Mailboxes that everybody has left. -/

/-- Every mailbox that was created has been closed and drained. -/
def State.Spent (s : State) : Prop :=
  ∀ i < maxMbox, (s.box i).used = true → (s.box i).closed = true ∧ (s.box i).count = 0

/-- `mbox_create` gives an open and empty mailbox, and a following `mbox_send` succeeds. -/
def State.Serves (s : State) (key : Int) : Prop :=
  ∃ id : Nat, id < maxMbox ∧ (s.mboxCreate key).1 = id ∧
    ((s.mboxCreate key).2.box id).used = true ∧ ((s.mboxCreate key).2.box id).closed = false ∧
    ((s.mboxCreate key).2.box id).count = 0 ∧
    ∀ p msg, (s.mboxCreate key).2.call p = none →
      ∃ t, (s.mboxCreate key).2.exec (.send p id msg) = some (.sent id msg, t)

/-- A new key gets an open mailbox while the table has room. -/
theorem serves_claimed {s : State} {key : Int} {c : Nat} (hc : c < maxMbox)
    (heq : s.mboxCreate key = ((c : Int), s.setBox c ((s.box c).claimed key))) : s.Serves key := by
  have hself : (s.setBox c ((s.box c).claimed key)).box c = (s.box c).claimed key := by
    simp [State.setBox]
  unfold State.Serves
  rw [heq]
  refine ⟨c, hc, rfl, by rw [hself]; rfl, by rw [hself]; rfl, by rw [hself]; rfl, ?_⟩
  intro p msg hcall
  have hid : ¬ ((c : Int) < 0 ∨ (maxMbox : Int) ≤ c) := by omega
  have hsend : ((s.box c).claimed key).mboxSend msg =
      .ret true (((s.box c).claimed key).put msg) := rfl
  have hexec : (s.setBox c ((s.box c).claimed key)).exec (.send p c msg) = some
      ((s.setBox c ((s.box c).claimed key)).endSend p c msg
        (.ret true (((s.box c).claimed key).put msg))) := by
    rw [State.exec, if_pos hcall, if_neg hid, Int.toNat_natCast, hself, hsend]
  exact ⟨_, hexec⟩

/-- In a state where every mailbox is closed and drained, a key gets an open mailbox exactly if
it has never been asked for and fewer keys have been than there are entries. -/
theorem spent_serves_iff {tr : List Action} {s : State} (hr : Run ActStep State.init tr s)
    (hs : s.Spent) (key : Int) :
    s.Serves key ↔ key ∉ createdKeys tr ∧ (createdKeys tr).card < maxMbox := by
  have h := keyed_run hr
  cases mboxCreate_cases s key with
  | inl hfound =>
    obtain ⟨i, hi, hu, hk, heq⟩ := hfound
    constructor
    · intro hserve
      obtain ⟨id, -, hid, -, hopen, -⟩ := hserve
      rw [heq] at hid hopen
      have he : i = id := Int.ofNat.inj hid
      rw [← he, (hs i hi hu).1] at hopen
      cases hopen
    · intro hno
      exact absurd (hk ▸ h.asked i hi hu) hno.1
  | inr hnew =>
    obtain ⟨hno, hcase⟩ := hnew
    cases hcase with
    | inl hclaim =>
      obtain ⟨c, hc, hfree, heq⟩ := hclaim
      refine ⟨fun _ => ⟨?_, h.exists_unused_iff.mp ⟨c, hc, hfree⟩⟩, fun _ => serves_claimed hc heq⟩
      intro hk
      cases h.there key hk with
      | inl hentry =>
        obtain ⟨i, hi, hu, hki⟩ := hentry
        exact hno i hi hu hki
      | inr hfull =>
        have := hfull c hc
        rw [hfree] at this
        cases this
    | inr hfull =>
      constructor
      · intro hserve
        obtain ⟨id, -, hid, -⟩ := hserve
        rw [hfull.2] at hid
        omega
      · intro hroom
        obtain ⟨c, hc, hfree⟩ := h.exists_unused_iff.mpr hroom.2
        have := hfull.1 c hc
        rw [hfree] at this
        cases this

/-- The mailbox of key 7 has been created and closed. -/
def closedOnce : State := ((State.init.mboxCreate 7).2.mboxClose 0).2

theorem closedOnce_run : Run ActStep State.init [.create 7, .close 0] closedOnce :=
  (Run.single ⟨_, rfl⟩).snoc ⟨_, rfl⟩

theorem closedOnce_spent : closedOnce.Spent := by
  intro i hi hu
  have hi0 : i = 0 := by
    by_contra hne
    have hbox : closedOnce.box i = Mailbox.init := by
      have hupd : closedOnce.box = Function.update (Function.update State.init.box 0
        (Mailbox.init.claimed 7)) 0 { Mailbox.init.claimed 7 with closed := true } := rfl
      rw [hupd, Function.update_of_ne hne, Function.update_of_ne hne]
      rfl
    rw [hbox] at hu
    cases hu
  subst hi0
  exact ⟨rfl, rfl⟩

theorem spent_serves_iff_second_key : closedOnce.Serves 8 :=
  (spent_serves_iff closedOnce_run closedOnce_spent 8).mpr ⟨by decide, by decide⟩

/-- A closed mailbox is handed out again, and no message can be sent to it. -/
theorem closed_mailbox_returned : Run ActStep State.init [.create 7, .close 0] closedOnce ∧
    closedOnce.Spent ∧ closedOnce.mboxCreate 7 = (0, closedOnce) ∧
    (∃ t, closedOnce.exec (.send 1 0 42) = some (.sendFailed 0, t)) ∧ ¬ closedOnce.Serves 7 := by
  have hcreate : closedOnce.mboxCreate 7 = (0, closedOnce) := rfl
  refine ⟨closedOnce_run, closedOnce_spent, hcreate, ⟨_, rfl⟩, ?_⟩
  intro hserve
  obtain ⟨id, -, hid, -, hopen, -⟩ := hserve
  rw [hcreate] at hid hopen
  have he : id = 0 := (Int.ofNat.inj hid).symm
  rw [he] at hopen
  cases hopen

end Xv6Labs.Mbox
