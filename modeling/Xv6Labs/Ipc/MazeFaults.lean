import Xv6Labs.Ipc.Maze

/-! The maze game over mailboxes that may fail: any `mbox_send` or `mbox_recv` of the two
processes may return -1, with the mailbox left as it was. `recv_loc` then returns -1, the
value that `master` also takes for the end marker. -/
namespace Xv6Labs.Maze
open Kit Mbox

inductive Side where
  | A | B
  deriving DecidableEq

def Side.other : Side → Side
  | .A => .B
  | .B => .A

/-- What a step does: a table lookup at the position held, followed by the send; a receive; a
failed receive; the tests between two calls; the printout of `master`. -/
inductive Event where
  | looked (w : Side) (pos value : Int)
  | received (w : Side) (value : Int)
  | recvFailed (w : Side)
  | tested (w : Side)
  | printed (v : Verdict)

/-- The mailbox after a call of `mbox_send` that may fail. -/
def Sends (b : Mailbox) (msg : Int) (b' : Mailbox) : Prop := b' = b ∨ sendTo b msg = some b'

inductive FaultyStep : State → Event → State → Prop
  | lookA {s : State} {r : Nat} {a : Int} {b' : Mailbox} (hpc : s.pcA = .top r a)
      (hs : Sends s.ab (s.g.lookupB a) b') :
      FaultyStep s (.looked .A a (s.g.lookupB a))
        { s with ab := b', pcA := .sent r (s.g.lookupB a) }
  | recvA {s : State} {r : Nat} {v : Int} {b' : Mailbox} (hpc : s.pcA = .recv r)
      (hr : s.ba.mboxRecv = .ret (some v) b') :
      FaultyStep s (.received .A v) { s with ba := b', pcA := .got r v }
  | failA {s : State} {r : Nat} (hpc : s.pcA = .recv r) :
      FaultyStep s (.recvFailed .A) { s with pcA := .got r (-1) }
  | sentA {s t : State} {r : Nat} {v : Int} (hpc : s.pcA = .sent r v) (hs : s.stepA = some t) :
      FaultyStep s (.tested .A) t
  | gotA {s t : State} {r : Nat} {v : Int} (hpc : s.pcA = .got r v) (hs : s.stepA = some t) :
      FaultyStep s (.tested .A) t
  | recvB {s : State} {r : Nat} {b v : Int} {b' : Mailbox} (hpc : s.pcB = .recv r b)
      (hr : s.ab.mboxRecv = .ret (some v) b') :
      FaultyStep s (.received .B v) { s with ab := b', pcB := .got r b v }
  | failB {s : State} {r : Nat} {b : Int} (hpc : s.pcB = .recv r b) :
      FaultyStep s (.recvFailed .B) { s with pcB := .got r b (-1) }
  | lookB {s : State} {r : Nat} {b v : Int} {b' : Mailbox} (hpc : s.pcB = .got r b v)
      (hs : Sends s.ba (s.g.lookupA b) b') :
      FaultyStep s (.looked .B b (s.g.lookupA b))
        { s with ba := b', pcB := .sent r v (s.g.lookupA b) }
  | sentB {s t : State} {r : Nat} {v x : Int} (hpc : s.pcB = .sent r v x)
      (hs : s.stepB = some t) : FaultyStep s (.tested .B) t
  | print {s t : State} (hs : s.stepMaster = some t) : FaultyStep s (.printed s.g.verdict) t

/-! Where a `done` flag may come from. -/

def Details.OnBoard (g : Details) (pos : Int) : Prop := 0 ≤ pos ∧ pos < g.L

/-- A table lookup of this side, at a position it held on the board, gave `v`. -/
def Looked (g : Details) (tr : List Event) (w : Side) (v : Int) : Prop :=
  ∃ pos, g.OnBoard pos ∧ Event.looked w pos v ∈ tr

/-- The side looked up the end marker, or received the one that the other side looked up. -/
def Reached (g : Details) (tr : List Event) (w : Side) : Prop :=
  Looked g tr w g.endMark ∨
    (Event.received w g.endMark ∈ tr ∧ Looked g tr w.other g.endMark)

/-- WIN needs a lookup that gave the end marker, and so does each of the two flags. -/
structure Honest (g : Details) (tr : List Event) (s : State) : Prop where
  win : s.verdict = some .win → ∃ w, Looked g tr w g.endMark
  doneA : s.g.doneA ≠ 0 → Reached g tr .A
  doneB : s.g.doneB ≠ 0 → Reached g tr .B

/-- The condition on a step: A's receive does not fail, and B's fails at most where B's own
lookup, which comes next, ends the game. -/
def Harmless (s : State) : Event → Prop
  | .recvFailed .A => False
  | .recvFailed .B => ∃ r b, s.pcB = .recv r b ∧ s.g.lookupA b = s.g.endMark
  | _ => True

/-- The event tells this side that the game is over. -/
def Event.Ends (g : Details) (w : Side) : Event → Prop
  | .looked w' _ v | .received w' v => w' = w ∧ v = g.endMark
  | _ => False

def Quiet (g : Details) (tr : List Event) (w : Side) : Prop := ∀ e ∈ tr, ¬ e.Ends g w

section events
variable {g : Details} {tr : List Event} {e : Event} {w : Side} {v : Int}

theorem quiet_snoc : Quiet g (tr ++ [e]) w ↔ Quiet g tr w ∧ ¬ e.Ends g w := by
  simp [Quiet, or_imp, forall_and]

theorem Looked.snoc (h : Looked g tr w v) : Looked g (tr ++ [e]) w v := by
  obtain ⟨pos, hpos, hmem⟩ := h
  exact ⟨pos, hpos, List.mem_append_left _ hmem⟩

theorem Reached.snoc (h : Reached g tr w) : Reached g (tr ++ [e]) w := by
  cases h with
  | inl hl => exact .inl hl.snoc
  | inr hr => exact .inr ⟨List.mem_append_left _ hr.1, hr.2.snoc⟩

theorem Reached.looked (h : Reached g tr w) : ∃ w', Looked g tr w' g.endMark := by
  cases h with
  | inl hl => exact ⟨w, hl⟩
  | inr hr => exact ⟨w.other, hr.2⟩

theorem Quiet.not_reached (h : Quiet g tr w) : ¬ Reached g tr w := by
  intro hr
  cases hr with
  | inl hl =>
    obtain ⟨pos, -, hmem⟩ := hl
    exact h _ hmem ⟨rfl, rfl⟩
  | inr hl => exact h _ hl.1 ⟨rfl, rfl⟩

end events

/-! The invariant of the runs in which every step is harmless. -/

/-- What A can say at each point of its loop about the history. -/
def PcA.Says (g : Details) (tr : List Event) (doneA : Int) : PcA → Prop
  | .top _ a => g.OnBoard a ∧ Quiet g tr .A ∧ doneA = 0
  | .sent _ v => Looked g tr .A v ∧ (v ≠ g.endMark → Quiet g tr .A) ∧ doneA = 0
  | .recv _ => Quiet g tr .A ∧ doneA = 0
  | .got _ v => (v = g.endMark → Reached g tr .A) ∧
      (v ≠ g.endMark → g.OnBoard v ∧ Quiet g tr .A) ∧ doneA = 0
  | .exited _ => Reached g tr .A

/-- After a failed receive B holds the end marker without having reached it; its own lookup
makes up for that. -/
def PcB.Says (g : Details) (tr : List Event) (doneB : Int) : PcB → Prop
  | .recv _ b => g.OnBoard b ∧ Quiet g tr .B ∧ doneB = 0
  | .got _ b v => g.OnBoard b ∧ (v = g.endMark → Reached g tr .B ∨ g.lookupA b = g.endMark) ∧
      (v ≠ g.endMark → g.OnBoard v ∧ Quiet g tr .B) ∧ doneB = 0
  | .sent _ v x => (v = g.endMark ∨ x = g.endMark → Reached g tr .B) ∧
      (v ≠ g.endMark → x ≠ g.endMark → g.OnBoard v ∧ Quiet g tr .B) ∧ doneB = 0
  | .exited _ => Reached g tr .B

/-- A mailbox that holds nothing but lookups of the side that sends to it. -/
structure BoxSays (g : Details) (tr : List Event) (w : Side) (b : Mailbox) : Prop where
  ok : b.Ok
  looked : ∀ v ∈ b.pending, Looked g tr w v ∧ (v = g.endMark ∨ g.OnBoard v)

structure Fair (g : Details) (tr : List Event) (s : State) : Prop where
  page : s.g = { g with doneA := s.g.doneA, doneB := s.g.doneB }
  ab : BoxSays g tr .A s.ab
  ba : BoxSays g tr .B s.ba
  a : s.pcA.Says g tr s.g.doneA
  b : s.pcB.Says g tr s.g.doneB
  verdict : ∀ v, s.verdict = some v → s.ExitedA ∧ s.ExitedB

section frame
variable {g : Details} {tr : List Event} {e : Event} {w : Side} {v d : Int}

/-- What the other side does leaves A's account as it is. -/
theorem PcA.Says.snoc {pc : PcA} (h : pc.Says g tr d) (he : ¬ e.Ends g .A) :
    pc.Says g (tr ++ [e]) d := by
  cases pc with
  | top r a => exact ⟨h.1, quiet_snoc.mpr ⟨h.2.1, he⟩, h.2.2⟩
  | sent r v => exact ⟨h.1.snoc, fun hv => quiet_snoc.mpr ⟨h.2.1 hv, he⟩, h.2.2⟩
  | recv r => exact ⟨quiet_snoc.mpr ⟨h.1, he⟩, h.2⟩
  | got r v =>
    refine ⟨fun hv => (h.1 hv).snoc, fun hv => ⟨(h.2.1 hv).1, ?_⟩, h.2.2⟩
    exact quiet_snoc.mpr ⟨(h.2.1 hv).2, he⟩
  | exited r => exact Reached.snoc h

theorem PcB.Says.snoc {pc : PcB} (h : pc.Says g tr d) (he : ¬ e.Ends g .B) :
    pc.Says g (tr ++ [e]) d := by
  cases pc with
  | recv r b => exact ⟨h.1, quiet_snoc.mpr ⟨h.2.1, he⟩, h.2.2⟩
  | got r b v =>
    refine ⟨h.1, fun hv => (h.2.1 hv).imp Reached.snoc id, fun hv => ⟨(h.2.2.1 hv).1, ?_⟩, h.2.2.2⟩
    exact quiet_snoc.mpr ⟨(h.2.2.1 hv).2, he⟩
  | sent r v x =>
    refine ⟨fun hv => (h.1 hv).snoc, fun hv hx => ⟨(h.2.1 hv hx).1, ?_⟩, h.2.2⟩
    exact quiet_snoc.mpr ⟨(h.2.1 hv hx).2, he⟩
  | exited r => exact Reached.snoc h

theorem BoxSays.snoc {b : Mailbox} (h : BoxSays g tr w b) : BoxSays g (tr ++ [e]) w b where
  ok := h.ok
  looked v hv := ⟨(h.looked v hv).1.snoc, (h.looked v hv).2⟩

/-- A send of what has just been looked up, whether it succeeds or not. -/
theorem BoxSays.send {b b' : Mailbox} {pos : Int} (h : BoxSays g tr w b) (hs : Sends b v b')
    (hpos : g.OnBoard pos) (hv : v = g.endMark ∨ g.OnBoard v) :
    BoxSays g (tr ++ [.looked w pos v]) w b' := by
  cases hs with
  | inl heq =>
    subst heq
    exact h.snoc
  | inr hs =>
    have hlook : Looked g (tr ++ [.looked w pos v]) w v := ⟨pos, hpos, by simp⟩
    rw [sendTo] at hs
    split at hs
    · cases hs
    · next ok b'' hret =>
      cases hs
      rw [Mailbox.mboxSend] at hret
      split at hret
      · cases hret
        exact h.snoc
      · cases ok with
        | false =>
          rw [sendLoop_ret_false hret]
          exact h.snoc
        | true =>
          obtain ⟨hc, -, rfl⟩ := sendLoop_ret_true hret
          refine ⟨ok_put h.ok hc v, ?_⟩
          intro u hu
          rw [pending_put h.ok hc] at hu
          cases List.mem_append.mp hu with
          | inl hin => exact h.snoc.looked u hin
          | inr hin =>
            rw [List.mem_singleton.mp hin]
            exact ⟨hlook, hv⟩

theorem BoxSays.recv {b b' : Mailbox} (h : BoxSays g tr w b)
    (hr : b.mboxRecv = .ret (some v) b') :
    BoxSays g tr w b' ∧ Looked g tr w v ∧ (v = g.endMark ∨ g.OnBoard v) := by
  rw [Mailbox.mboxRecv] at hr
  split at hr
  · cases hr
  · obtain ⟨hc, hv, rfl⟩ := recvLoop_ret_some hr
    have hp := pending_take h.ok hc
    refine ⟨⟨ok_take h.ok hc, ?_⟩, ?_⟩
    · intro u hu
      exact h.looked u (by rw [hp]; exact List.mem_cons_of_mem _ hu)
    · exact h.looked v (by rw [hp, hv]; exact List.mem_cons_self)

end frame

section steps
variable {g : Details} {tr : List Event} {e : Event} {s t : State}

theorem Fair.lookupB (h : Fair g tr s) (a : Int) : s.g.lookupB a = g.lookupB a :=
  page_lookupB h.page a

theorem Fair.lookupA (h : Fair g tr s) (b : Int) : s.g.lookupA b = g.lookupA b :=
  page_lookupA h.page b

theorem Fair.endMark (h : Fair g tr s) : s.g.endMark = g.endMark := page_endMark h.page

/-- A step of A: its own account is given anew, B's is framed. -/
theorem Fair.moveA (h : Fair g tr s) (hrun : ¬ s.ExitedA) (he : ¬ e.Ends g .B)
    {ab ba : Mailbox} {pc : PcA} {d : Int} (hab : BoxSays g (tr ++ [e]) .A ab)
    (hba : BoxSays g (tr ++ [e]) .B ba) (ha : pc.Says g (tr ++ [e]) d) :
    Fair g (tr ++ [e]) { s with g := { s.g with doneA := d }, ab := ab, ba := ba, pcA := pc } where
  page := by rw [h.page]
  ab := hab
  ba := hba
  a := ha
  b := h.b.snoc he
  verdict v hv := absurd (h.verdict v hv).1 hrun

theorem Fair.moveB (h : Fair g tr s) (hrun : ¬ s.ExitedB) (he : ¬ e.Ends g .A)
    {ab ba : Mailbox} {pc : PcB} {d : Int} (hab : BoxSays g (tr ++ [e]) .A ab)
    (hba : BoxSays g (tr ++ [e]) .B ba) (hb : pc.Says g (tr ++ [e]) d) :
    Fair g (tr ++ [e]) { s with g := { s.g with doneB := d }, ab := ab, ba := ba, pcB := pc } where
  page := by rw [h.page]
  ab := hab
  ba := hba
  a := h.a.snoc he
  b := hb
  verdict v hv := absurd (h.verdict v hv).2 hrun

/-- A step in which A only tests a value it has. -/
theorem Fair.testA (h : Fair g tr s) (hrun : ¬ s.ExitedA) (d : Int) (pc : PcA)
    (ha : pc.Says g tr d) :
    Fair g (tr ++ [.tested .A]) { s with g := { s.g with doneA := d }, pcA := pc } :=
  h.moveA hrun id h.ab.snoc h.ba.snoc (ha.snoc id)

theorem Fair.testB (h : Fair g tr s) (hrun : ¬ s.ExitedB) (d : Int) (pc : PcB)
    (hb : pc.Says g tr d) :
    Fair g (tr ++ [.tested .B]) { s with g := { s.g with doneB := d }, pcB := pc } :=
  h.moveB hrun id h.ab.snoc h.ba.snoc (hb.snoc id)

/-- The tables that `master` builds lead from the board to the board or to the end. -/
theorem lookup_onBoard {L startA startB : Int} (hg : master L startA startB = some g) {pos : Int}
    (hpos : g.OnBoard pos) :
    (g.lookupA pos = g.endMark ∨ g.OnBoard (g.lookupA pos)) ∧
      (g.lookupB pos = g.endMark ∨ g.OnBoard (g.lookupB pos)) := by
  obtain ⟨-, -, -, -, -, hL, hend, -, -, -, -, hA, hB⟩ := master_some hg
  rw [Details.OnBoard, hL] at hpos
  rw [Details.OnBoard, Details.OnBoard, hL, hend, hA _ hpos.1 hpos.2, hB _ hpos.1 hpos.2]
  split <;> split <;> omega

theorem fair_init {L startA startB : Int} (hg : master L startA startB = some g)
    (abKey baKey : Int) : Fair g [] (State.init g abKey baKey) := by
  obtain ⟨-, ha0, ha1, hb0, hb1, hL, -, hsa, hsb, hdA, hdB, -, -⟩ := master_some hg
  have hfresh (w : Side) (key : Int) : BoxSays g [] w (freshBox key) := by
    refine ⟨(boxIs_fresh key).ok, ?_⟩
    rw [(boxIs_fresh key).pending]
    intro v hv
    cases hv
  have hquiet (w : Side) : Quiet g [] w := by
    intro e he
    cases he
  refine ⟨rfl, hfresh .A abKey, hfresh .B baKey, ⟨?_, hquiet .A, hdA⟩, ⟨?_, hquiet .B, hdB⟩, ?_⟩
  · rw [Details.OnBoard, hL, hsa]
    exact ⟨ha0, ha1⟩
  · rw [Details.OnBoard, hL, hsb]
    exact ⟨hb0, hb1⟩
  · intro v hv
    cases hv

section preserved
variable {L startA startB : Int} (hg : master L startA startB = some g) (h : Fair g tr s)
include h

include hg in
theorem fair_lookA {r : Nat} {a : Int} {b' : Mailbox} (hpc : s.pcA = .top r a)
    (hs : Sends s.ab (s.g.lookupB a) b') :
    Fair g (tr ++ [.looked .A a (s.g.lookupB a)])
      { s with ab := b', pcA := .sent r (s.g.lookupB a) } := by
  have hrun : ¬ s.ExitedA := by simp [State.ExitedA, hpc]
  have ha := h.a
  rw [hpc] at ha
  obtain ⟨hpos, hq, hd⟩ := ha
  rw [h.lookupB] at hs ⊢
  have hrange := (lookup_onBoard hg hpos).2
  refine h.moveA hrun (by simp [Event.Ends]) (h.ab.send hs hpos hrange) h.ba.snoc ?_
  refine ⟨⟨a, hpos, by simp⟩, fun hv => quiet_snoc.mpr ⟨hq, ?_⟩, hd⟩
  exact fun hends => hv hends.2

theorem fair_recvA {r : Nat} {v : Int} {b' : Mailbox} (hpc : s.pcA = .recv r)
    (hr : s.ba.mboxRecv = .ret (some v) b') :
    Fair g (tr ++ [.received .A v]) { s with ba := b', pcA := .got r v } := by
  have hrun : ¬ s.ExitedA := by simp [State.ExitedA, hpc]
  have ha := h.a
  rw [hpc] at ha
  obtain ⟨hba, hlook, hrange⟩ := h.ba.recv hr
  refine h.moveA hrun (by simp [Event.Ends]) h.ab.snoc hba.snoc ⟨?_, ?_, ha.2⟩
  · intro hv
    rw [hv] at hlook ⊢
    exact .inr ⟨by simp, hlook.snoc⟩
  · intro hv
    exact ⟨hrange.resolve_left hv, quiet_snoc.mpr ⟨ha.1, fun hends => hv hends.2⟩⟩

theorem fair_sentA {r : Nat} {v : Int} (hpc : s.pcA = .sent r v) (hs : s.stepA = some t) :
    Fair g (tr ++ [.tested .A]) t := by
  have hrun : ¬ s.ExitedA := by simp [State.ExitedA, hpc]
  have ha := h.a
  rw [hpc] at ha
  obtain ⟨hlook, hq, hd⟩ := ha
  simp only [State.stepA, hpc] at hs
  split at hs
  · next hv =>
    cases hs
    rw [h.endMark] at hv
    rw [hv] at hlook
    exact h.testA hrun 1 (.exited r) (.inl hlook)
  · next hv =>
    cases hs
    rw [h.endMark] at hv
    exact h.testA hrun s.g.doneA (.recv r) ⟨hq hv, hd⟩

theorem fair_gotA {r : Nat} {v : Int} (hpc : s.pcA = .got r v) (hs : s.stepA = some t) :
    Fair g (tr ++ [.tested .A]) t := by
  have hrun : ¬ s.ExitedA := by simp [State.ExitedA, hpc]
  have ha := h.a
  rw [hpc] at ha
  obtain ⟨hreach, hq, hd⟩ := ha
  simp only [State.stepA, hpc] at hs
  split at hs
  · next hv =>
    cases hs
    rw [h.endMark] at hv
    exact h.testA hrun 1 (.exited r) (hreach hv)
  · next hv =>
    cases hs
    rw [h.endMark] at hv
    exact h.testA hrun s.g.doneA (.top (r+1) v) ⟨(hq hv).1, (hq hv).2, hd⟩

theorem fair_recvB {r : Nat} {b v : Int} {b' : Mailbox} (hpc : s.pcB = .recv r b)
    (hr : s.ab.mboxRecv = .ret (some v) b') :
    Fair g (tr ++ [.received .B v]) { s with ab := b', pcB := .got r b v } := by
  have hrun : ¬ s.ExitedB := by simp [State.ExitedB, hpc]
  have hb := h.b
  rw [hpc] at hb
  obtain ⟨hpos, hq, hd⟩ := hb
  obtain ⟨hab, hlook, hrange⟩ := h.ab.recv hr
  refine h.moveB hrun (by simp [Event.Ends]) hab.snoc h.ba.snoc ⟨hpos, ?_, ?_, hd⟩
  · intro hv
    rw [hv] at hlook ⊢
    exact .inl (.inr ⟨by simp, hlook.snoc⟩)
  · intro hv
    exact ⟨hrange.resolve_left hv, quiet_snoc.mpr ⟨hq, fun hends => hv hends.2⟩⟩

include hg in
/-- The failed receive hands B the end marker at a position whose lookup ends the game. -/
theorem fair_failB {r : Nat} {b : Int} (hpc : s.pcB = .recv r b)
    (hend : s.g.lookupA b = s.g.endMark) :
    Fair g (tr ++ [.recvFailed .B]) { s with pcB := .got r b (-1) } := by
  have hrun : ¬ s.ExitedB := by simp [State.ExitedB, hpc]
  have hb := h.b
  rw [hpc] at hb
  obtain ⟨hpos, -, hd⟩ := hb
  have hmark : g.endMark = -1 := (master_some hg).2.2.2.2.2.2.1
  rw [h.lookupA, h.endMark] at hend
  refine h.moveB hrun id h.ab.snoc h.ba.snoc ⟨hpos, fun _ => .inr hend, ?_, hd⟩
  exact fun hv => absurd hmark.symm hv

include hg in
theorem fair_lookB {r : Nat} {b v : Int} {b' : Mailbox} (hpc : s.pcB = .got r b v)
    (hs : Sends s.ba (s.g.lookupA b) b') :
    Fair g (tr ++ [.looked .B b (s.g.lookupA b)])
      { s with ba := b', pcB := .sent r v (s.g.lookupA b) } := by
  have hrun : ¬ s.ExitedB := by simp [State.ExitedB, hpc]
  have hb := h.b
  rw [hpc] at hb
  obtain ⟨hpos, hreach, hq, hd⟩ := hb
  rw [h.lookupA] at hs ⊢
  have hrange := (lookup_onBoard hg hpos).1
  refine h.moveB hrun (by simp [Event.Ends]) h.ab.snoc (h.ba.send hs hpos hrange) ?_
  -- B's own lookup settles the case that its receive failed.
  have hown (hx : g.lookupA b = g.endMark) :
      Reached g (tr ++ [.looked .B b (g.lookupA b)]) .B := by
    rw [hx]
    exact .inl ⟨b, hpos, by simp⟩
  refine ⟨?_, ?_, hd⟩
  · intro hor
    cases hor with
    | inl hv => exact (hreach hv).elim Reached.snoc hown
    | inr hx => exact hown hx
  · intro hv hx
    exact ⟨(hq hv).1, quiet_snoc.mpr ⟨(hq hv).2, fun hends => hx hends.2⟩⟩

theorem fair_sentB {r : Nat} {v x : Int} (hpc : s.pcB = .sent r v x) (hs : s.stepB = some t) :
    Fair g (tr ++ [.tested .B]) t := by
  have hrun : ¬ s.ExitedB := by simp [State.ExitedB, hpc]
  have hb := h.b
  rw [hpc] at hb
  obtain ⟨hreach, hq, hd⟩ := hb
  simp only [State.stepB, hpc] at hs
  split at hs
  · next hv =>
    cases hs
    rw [h.endMark] at hv
    exact h.testB hrun 1 (.exited r) (hreach (.inl hv))
  · next hv =>
    rw [h.endMark] at hv
    split at hs
    · next hx =>
      cases hs
      rw [h.endMark] at hx
      exact h.testB hrun 1 (.exited r) (hreach (.inr hx))
    · next hx =>
      cases hs
      rw [h.endMark] at hx
      exact h.testB hrun s.g.doneB (.recv (r+1) v) ⟨(hq hv hx).1, (hq hv hx).2, hd⟩

theorem fair_print {v : Verdict} (hs : s.stepMaster = some t) : Fair g (tr ++ [.printed v]) t := by
  rw [State.stepMaster] at hs
  split at hs
  · next rA rB hv hA hB =>
    cases hs
    have hab := h.ab.snoc (e := .printed v)
    have hba := h.ba.snoc (e := .printed v)
    refine ⟨h.page, ?_, ?_, h.a.snoc id, h.b.snoc id, fun _ _ => ⟨⟨rA, hA⟩, ⟨rB, hB⟩⟩⟩
    · exact ⟨⟨hab.ok.head, hab.ok.count, hab.ok.tail⟩, hab.looked⟩
    · exact ⟨⟨hba.ok.head, hba.ok.count, hba.ok.tail⟩, hba.looked⟩
  · cases hs

include hg in
theorem fair_step (hs : FaultyStep s e t) (hok : Harmless s e) : Fair g (tr ++ [e]) t := by
  cases hs with
  | lookA hpc hsend => exact fair_lookA hg h hpc hsend
  | recvA hpc hrecv => exact fair_recvA h hpc hrecv
  | failA hpc => exact hok.elim
  | sentA hpc hstep => exact fair_sentA h hpc hstep
  | gotA hpc hstep => exact fair_gotA h hpc hstep
  | recvB hpc hrecv => exact fair_recvB h hpc hrecv
  | failB hpc =>
    obtain ⟨r', b', hpc', hend⟩ := hok
    rw [hpc] at hpc'
    obtain ⟨rfl, rfl⟩ := PcB.recv.inj hpc'
    exact fair_failB hg h hpc hend
  | lookB hpc hsend => exact fair_lookB hg h hpc hsend
  | sentB hpc hstep => exact fair_sentB h hpc hstep
  | print hstep => exact fair_print h hstep

end preserved

theorem Fair.honest (h : Fair g tr s) : Honest g tr s := by
  have hA : s.ExitedA → Reached g tr .A := by
    intro hex
    obtain ⟨r, hpc⟩ := hex
    have ha := h.a
    rwa [hpc] at ha
  refine ⟨?_, ?_, ?_⟩
  · intro hwin
    exact (hA (h.verdict .win hwin).1).looked
  · intro hd
    have ha := h.a
    cases hpc : s.pcA with
    | top r a => rw [hpc] at ha; exact absurd ha.2.2 hd
    | sent r v => rw [hpc] at ha; exact absurd ha.2.2 hd
    | recv r => rw [hpc] at ha; exact absurd ha.2 hd
    | got r v => rw [hpc] at ha; exact absurd ha.2.2 hd
    | exited r => exact hA ⟨r, hpc⟩
  · intro hd
    have hb := h.b
    cases hpc : s.pcB with
    | recv r b => rw [hpc] at hb; exact absurd hb.2.2 hd
    | got r b v => rw [hpc] at hb; exact absurd hb.2.2.2 hd
    | sent r v x => rw [hpc] at hb; exact absurd hb.2.2 hd
    | exited r => rw [hpc] at hb; exact hb

/-- A failed receive of A: one step later A has left with `doneA` set and nothing to show. -/
theorem failA_dishonest {r : Nat} (hmark : s.g.endMark = -1) (hq : Quiet g tr .A) :
    ∃ tr' u, Run (Guarded FaultyStep Harmless) { s with pcA := .got r (-1) } tr' u ∧
      ¬ Honest g (tr ++ [.recvFailed .A] ++ tr') u := by
  have hstep : State.stepA { s with pcA := .got r (-1) } =
      some { s with g := { s.g with doneA := 1 }, pcA := .exited r } := by
    simp [State.stepA, hmark]
  refine ⟨[.tested .A], _, Run.single ⟨.gotA rfl hstep, trivial⟩, ?_⟩
  intro hhon
  have hq' : Quiet g (tr ++ [.recvFailed .A] ++ [.tested .A]) .A :=
    quiet_snoc.mpr ⟨quiet_snoc.mpr ⟨hq, id⟩, id⟩
  exact hq'.not_reached (hhon.doneA Int.one_ne_zero)

/-- A failed receive of B where its lookup does not end the game: B still sends, here without
success, and then leaves with `doneB` set. -/
theorem failB_dishonest {r : Nat} {b : Int} (hmark : s.g.endMark = -1)
    (hlook : s.g.lookupA b ≠ g.endMark) (hq : Quiet g tr .B) :
    ∃ tr' u, Run (Guarded FaultyStep Harmless) { s with pcB := .got r b (-1) } tr' u ∧
      ¬ Honest g (tr ++ [.recvFailed .B] ++ tr') u := by
  have hstep : State.stepB { s with pcB := .sent r (-1) (s.g.lookupA b) } =
      some { s with g := { s.g with doneB := 1 }, pcB := .exited r } := by
    simp [State.stepB, hmark]
  have h1 : Run (Guarded FaultyStep Harmless) { s with pcB := .got r b (-1) }
      [.looked .B b (s.g.lookupA b)] { s with pcB := .sent r (-1) (s.g.lookupA b) } :=
    Run.single ⟨.lookB rfl (.inl rfl), trivial⟩
  refine ⟨_, _, h1.snoc ⟨.sentB rfl hstep, trivial⟩, ?_⟩
  intro hhon
  have hquiet : Quiet g (tr ++ [.recvFailed .B] ++ [.looked .B b (s.g.lookupA b)]) .B :=
    quiet_snoc.mpr ⟨quiet_snoc.mpr ⟨hq, id⟩, fun hends => hlook hends.2⟩
  have hq' := quiet_snoc.mpr ⟨hquiet, (id : ¬ (Event.tested .B).Ends g .B)⟩
  rw [← List.append_assoc] at hhon
  exact hq'.not_reached (hhon.doneB Int.one_ne_zero)

/-! The game over mailboxes that work. -/

/-- From an open mailbox `recv_loc` returns what was received. -/
theorem recvLoc_open {b b' : Mailbox} {v : Int} (hu : b.used = true) (hc : b.closed = false)
    (h : recvLoc b = some (v, b')) : b.mboxRecv = .ret (some v) b' := by
  unfold recvLoc at h
  cases hr : b.mboxRecv with
  | sleep =>
    rw [hr] at h
    cases h
  | ret m b1 =>
    rw [hr] at h
    cases m with
    | some u =>
      cases h
      rfl
    | none =>
      -- Only a mailbox that is not in use or closed makes `mbox_recv` fail.
      rw [Mailbox.mboxRecv, if_neg (by simp [hu])] at hr
      rw [(recvLoop_ret_none hr).2.2] at hc
      cases hc

/-- While a process is in its loop `master` has not closed the mailboxes. -/
theorem Inv.open_boxes (h : Inv g s) (hrun : ¬ (s.ExitedA ∧ s.ExitedB)) :
    (s.ab.used = true ∧ s.ab.closed = false) ∧ s.ba.used = true ∧ s.ba.closed = false := by
  have hnone : s.verdict.isSome = false := by
    cases hv : s.verdict with
    | none => rfl
    | some v => exact absurd (h.verdict v hv).2 hrun
  have hab := h.ab
  have hba := h.ba
  rw [hnone] at hab hba
  exact ⟨⟨hab.used, hab.closed⟩, hba.used, hba.closed⟩

/-- A step of the game is a step that the game may take when mailboxes may fail, and a harmless
one. -/
theorem faultyStep_of_step {w : Who} (h : Inv g s) (hs : Step s w t) :
    ∃ e, FaultyStep s e t ∧ Harmless s e := by
  cases w with
  | A =>
    have hA : s.stepA = some t := hs
    cases hpc : s.pcA with
    | top r a =>
      simp only [State.stepA, hpc] at hA
      obtain ⟨b, hb, rfl⟩ := Option.map_eq_some_iff.mp hA
      exact ⟨_, .lookA hpc (.inr hb), trivial⟩
    | sent r v => exact ⟨_, .sentA hpc hA, trivial⟩
    | recv r =>
      have hopen := (h.open_boxes (by simp [State.ExitedA, hpc])).2
      simp only [State.stepA, hpc] at hA
      obtain ⟨⟨v, b⟩, hb, rfl⟩ := Option.map_eq_some_iff.mp hA
      exact ⟨_, .recvA hpc (recvLoc_open hopen.1 hopen.2 hb), trivial⟩
    | got r v => exact ⟨_, .gotA hpc hA, trivial⟩
    | exited r =>
      simp only [State.stepA, hpc] at hA
      cases hA
  | B =>
    have hB : s.stepB = some t := hs
    cases hpc : s.pcB with
    | recv r b =>
      have hopen := (h.open_boxes (by simp [State.ExitedB, hpc])).1
      simp only [State.stepB, hpc] at hB
      obtain ⟨⟨v, b'⟩, hb, rfl⟩ := Option.map_eq_some_iff.mp hB
      exact ⟨_, .recvB hpc (recvLoc_open hopen.1 hopen.2 hb), trivial⟩
    | got r b v =>
      simp only [State.stepB, hpc] at hB
      obtain ⟨b', hb, rfl⟩ := Option.map_eq_some_iff.mp hB
      exact ⟨_, .lookB hpc (.inr hb), trivial⟩
    | sent r v x => exact ⟨_, .sentB hpc hB, trivial⟩
    | exited r =>
      simp only [State.stepB, hpc] at hB
      cases hB
  | master => exact ⟨_, .print hs, trivial⟩

end steps

/-- Over mailboxes that work every WIN, and each of the two flags, rests on a lookup that gave the
end marker. -/
theorem honest_run {L startA startB : Int} {g : Details} (hg : master L startA startB = some g)
    (abKey baKey : Int) {ws : List Who} {s : State}
    (hr : Run Step (State.init g abKey baKey) ws s) :
    ∃ tr, Run (Guarded FaultyStep Harmless) (State.init g abKey baKey) tr s ∧ Honest g tr s := by
  have key : Inv g s ∧
      ∃ tr, Run (Guarded FaultyStep Harmless) (State.init g abKey baKey) tr s ∧ Fair g tr s := by
    refine hr.invariant (P := fun t => Inv g t ∧ ∃ tr,
      Run (Guarded FaultyStep Harmless) (State.init g abKey baKey) tr t ∧ Fair g tr t)
      ⟨inv_init g abKey baKey, [], .nil, fair_init hg abKey baKey⟩ ?_
    rintro t w u ⟨hinv, tr, hrun, hfair⟩ hs
    obtain ⟨e, he, hok⟩ := faultyStep_of_step hinv hs
    exact ⟨inv_step hinv hs, _, hrun.snoc ⟨he, hok⟩, fair_step hg hfair he hok⟩
  obtain ⟨-, tr, hrun, hfair⟩ := key
  exact ⟨tr, hrun, hfair.honest⟩

/-- In every run whose steps are harmless WIN and the two flags rest on a lookup that gave the
end marker, and a step that is not harmless is one after which the run can go on to set a flag
that rests on none. -/
theorem win_honest_iff {L startA startB : Int} {g : Details}
    (hg : master L startA startB = some g) (abKey baKey : Int) {tr : List Event} {s : State}
    (hr : Run (Guarded FaultyStep Harmless) (State.init g abKey baKey) tr s) :
    Honest g tr s ∧ ∀ e t, FaultyStep s e t →
      (Harmless s e ↔ ∀ tr' u, Run (Guarded FaultyStep Harmless) t tr' u →
        Honest g (tr ++ [e] ++ tr') u) := by
  refine Run.guarded_later_iff (I := Fair g) (fair_init hg abKey baKey)
    (fun tr t e u h hs hok => fair_step hg h hs hok) (fun tr t h => h.honest) ?_ hr
  intro tr s e t h hs hno
  have hmark : s.g.endMark = -1 := h.endMark.trans (master_some hg).2.2.2.2.2.2.1
  cases hs with
  | failA hpc =>
    have ha := h.a
    rw [hpc] at ha
    exact failA_dishonest hmark ha.1
  | @failB r b hpc =>
    have hb := h.b
    rw [hpc] at hb
    refine failB_dishonest hmark (fun hend => hno ⟨r, b, hpc, ?_⟩) hb.2.1
    rw [hend, h.endMark]
  | _ => exact absurd trivial hno

def lengthOne : Details := (master 1 0 0).get rfl

/-- On a board of length one B may miss A's message: its own lookup ends the game as well. -/
theorem win_honest_iff_length_one :
    ∃ tr s, master 1 0 0 = some lengthOne ∧ Event.recvFailed .B ∈ tr ∧
      Run (Guarded FaultyStep Harmless) (State.init lengthOne 110 111) tr s ∧
      s.verdict = some .win ∧ Honest lengthOne tr s := by
  have hg : master 1 0 0 = some lengthOne := rfl
  have h1 : Run (Guarded FaultyStep Harmless) (State.init lengthOne 110 111) _ _ :=
    Run.single ⟨.failB rfl, ⟨0, 0, rfl, rfl⟩⟩
  have h2 := h1.snoc ⟨.lookB rfl (.inr rfl), trivial⟩
  have h3 := h2.snoc ⟨.sentB rfl rfl, trivial⟩
  have h4 := h3.snoc ⟨.lookA rfl (.inr rfl), trivial⟩
  have h5 := h4.snoc ⟨.sentA rfl rfl, trivial⟩
  have hr := h5.snoc ⟨.print rfl, trivial⟩
  exact ⟨_, _, hg, by simp, hr, rfl, (win_honest_iff hg 110 111 hr).1⟩

def lengthTen : Details := (master 10 0 0).get rfl

def bothFail : List Event :=
  [.looked .A 0 2, .tested .A, .recvFailed .A, .tested .A, .recvFailed .B, .looked .B 0 1,
    .tested .B, .printed .win]

/-- Both receives fail in the first round, far from the end of the board: `master` prints WIN
and no lookup has given the end marker. -/
theorem failed_receives_win :
    ∃ s, master 10 0 0 = some lengthTen ∧
      Run FaultyStep (State.init lengthTen 110 111) bothFail s ∧ s.verdict = some .win ∧
      s.g.doneA = 1 ∧ s.g.doneB = 1 ∧ (∀ w, ¬ Looked lengthTen bothFail w lengthTen.endMark) ∧
      ¬ Honest lengthTen bothFail s := by
  have hg : master 10 0 0 = some lengthTen := rfl
  have h1 : Run FaultyStep (State.init lengthTen 110 111) _ _ := Run.single (.lookA rfl (.inl rfl))
  have h2 := h1.snoc (.sentA rfl rfl)
  have h3 := h2.snoc (.failA rfl)
  have h4 := h3.snoc (.gotA rfl rfl)
  have h5 := h4.snoc (.failB rfl)
  have h6 := h5.snoc (.lookB rfl (.inl rfl))
  have h7 := h6.snoc (.sentB rfl rfl)
  have hr : Run FaultyStep _ bothFail _ := h7.snoc (.print rfl)
  have hno (w : Side) : ¬ Looked lengthTen bothFail w lengthTen.endMark := by
    rintro ⟨pos, -, hmem⟩
    have hmark : lengthTen.endMark = -1 := rfl
    rw [hmark] at hmem
    simp [bothFail] at hmem
  exact ⟨_, hg, hr, rfl, rfl, rfl, hno, fun hhon => (hhon.win rfl).elim hno⟩

end Xv6Labs.Maze
