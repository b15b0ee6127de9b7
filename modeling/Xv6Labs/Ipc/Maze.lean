import Xv6Labs.Ipc.Mbox

/-! The maze game of Task 3.2: `user/master.c` and the two roles of `user/process.c`
over one shared page and two mailboxes. A process blocked in `mbox_recv` or in
`mbox_send` has no step; the number `r` in a program counter counts rounds. -/
namespace Xv6Labs.Maze
open Kit Mbox

/-- `struct details`, the shared page. -/
structure Details where
  L : Int
  endMark : Int
  startA : Int
  startB : Int
  nextForA : Int → Int
  nextForB : Int → Int
  doneA : Int
  doneB : Int

/-- The checks of `master` and the page it builds; `none` when it exits early. -/
def master (L startA startB : Int) : Option Details :=
  if L ≤ 0 ∨ L > 255 then none
  else if startA < 0 ∨ startA ≥ L ∨ startB < 0 ∨ startB ≥ L then none
  else some {
    L := L
    endMark := -1
    startA := startA
    startB := startB
    nextForA := fun i => if 0 ≤ i ∧ i < L then (if i+1 < L then i+1 else -1) else 0
    nextForB := fun i => if 0 ≤ i ∧ i < L then (if i+2 < L then i+2 else -1) else 0
    doneA := 0
    doneB := 0 }

/-- `(a >= 0 && a < g->L) ? g->next_for_B[a] : g->end`. -/
def Details.lookupB (g : Details) (a : Int) : Int :=
  if 0 ≤ a ∧ a < g.L then g.nextForB a else g.endMark

def Details.lookupA (g : Details) (b : Int) : Int :=
  if 0 ≤ b ∧ b < g.L then g.nextForA b else g.endMark

/-- Process A: at the loop head, after its send, in its receive, after its receive, gone. -/
inductive PcA where
  | top (r : Nat) (a : Int)
  | sent (r : Nat) (nextB : Int)
  | recv (r : Nat)
  | got (r : Nat) (nextA : Int)
  | exited (r : Nat)
  deriving DecidableEq

/-- Process B: in its receive, after it, after its send, gone. -/
inductive PcB where
  | recv (r : Nat) (b : Int)
  | got (r : Nat) (b nextB : Int)
  | sent (r : Nat) (nextB nextA : Int)
  | exited (r : Nat)
  deriving DecidableEq

inductive Verdict where
  | win | lossB | lossA | lossBoth
  deriving DecidableEq

structure State where
  g : Details
  ab : Mailbox
  ba : Mailbox
  pcA : PcA
  pcB : PcB
  verdict : Option Verdict

/-- A mailbox fresh out of `mbox_create`. -/
def freshBox (key : Int) : Mailbox := { Mailbox.init with used := true, key := key }

def State.init (g : Details) (abKey baKey : Int) : State :=
  ⟨g, freshBox abKey, freshBox baKey, .top 0 g.startA, .recv 0 g.startB, none⟩

/-- The value `recv_loc` returns, with the mailbox left behind; `none` while it blocks. -/
def recvLoc (b : Mailbox) : Option (Int × Mailbox) :=
  match b.mboxRecv with
  | .sleep => none
  | .ret (some v) b' => some (v, b')
  | .ret none b' => some (-1, b')

/-- A call of `mbox_send` whose result is ignored; `none` while it blocks. -/
def sendTo (b : Mailbox) (msg : Int) : Option Mailbox :=
  match b.mboxSend msg with
  | .sleep => none
  | .ret _ b' => some b'

def State.stepA (s : State) : Option State :=
  match s.pcA with
  | .top r a => (sendTo s.ab (s.g.lookupB a)).map fun b =>
      { s with ab := b, pcA := .sent r (s.g.lookupB a) }
  | .sent r nextB =>
    if nextB = s.g.endMark then some { s with g := { s.g with doneA := 1 }, pcA := .exited r }
    else some { s with pcA := .recv r }
  | .recv r => (recvLoc s.ba).map fun vb => { s with ba := vb.2, pcA := .got r vb.1 }
  | .got r nextA =>
    if nextA = s.g.endMark then some { s with g := { s.g with doneA := 1 }, pcA := .exited r }
    else some { s with pcA := .top (r+1) nextA }
  | .exited _ => none

def State.stepB (s : State) : Option State :=
  match s.pcB with
  | .recv r b => (recvLoc s.ab).map fun vb => { s with ab := vb.2, pcB := .got r b vb.1 }
  | .got r b nextB => (sendTo s.ba (s.g.lookupA b)).map fun b' =>
      { s with ba := b', pcB := .sent r nextB (s.g.lookupA b) }
  | .sent r nextB nextA =>
    if nextB = s.g.endMark then some { s with g := { s.g with doneB := 1 }, pcB := .exited r }
    else if nextA = s.g.endMark then
      some { s with g := { s.g with doneB := 1 }, pcB := .exited r }
    else some { s with pcB := .recv (r+1) nextB }
  | .exited _ => none

def Details.verdict (g : Details) : Verdict :=
  if g.doneA ≠ 0 ∧ g.doneB ≠ 0 then .win
  else if g.doneA ≠ 0 then .lossB
  else if g.doneB ≠ 0 then .lossA
  else .lossBoth

/-- After both `wait`s `master` prints and closes the two mailboxes. -/
def State.stepMaster (s : State) : Option State :=
  match s.verdict, s.pcA, s.pcB with
  | none, .exited _, .exited _ => some { s with
      verdict := some s.g.verdict
      ab := { s.ab with closed := true }
      ba := { s.ba with closed := true } }
  | _, _, _ => none

inductive Who where
  | A | B | master

def State.step (s : State) : Who → Option State
  | .A => s.stepA
  | .B => s.stepB
  | .master => s.stepMaster

def Step (s : State) (w : Who) (t : State) : Prop := s.step w = some t

def State.BlockedA (s : State) : Prop := ∃ r, s.pcA = .recv r ∧ recvLoc s.ba = none
def State.BlockedB (s : State) : Prop := ∃ r b, s.pcB = .recv r b ∧ recvLoc s.ab = none
def State.ExitedA (s : State) : Prop := ∃ r, s.pcA = .exited r
def State.ExitedB (s : State) : Prop := ∃ r, s.pcB = .exited r

/-- The positions of A and B at the start of round `r`, by the tables alone. -/
def Details.pos (g : Details) : Nat → Int × Int
  | 0 => (g.startA, g.startB)
  | r+1 => (g.lookupA (g.pos r).2, g.lookupB (g.pos r).1)

/-- In round `r` one of the two table lookups gives the end marker. -/
def Details.EndsAt (g : Details) (r : Nat) : Prop :=
  g.lookupB (g.pos r).1 = g.endMark ∨ g.lookupA (g.pos r).2 = g.endMark

def Details.NoEndBefore (g : Details) (r : Nat) : Prop := ∀ k < r, ¬ g.EndsAt k

/-! The tables that `master` builds. -/
section tables
variable {L startA startB : Int} {g : Details}

theorem master_some (h : master L startA startB = some g) :
    0 < L ∧ 0 ≤ startA ∧ startA < L ∧ 0 ≤ startB ∧ startB < L ∧ g.L = L ∧ g.endMark = -1 ∧
      g.startA = startA ∧ g.startB = startB ∧ g.doneA = 0 ∧ g.doneB = 0 ∧
      (∀ i, 0 ≤ i → i < L → g.lookupA i = if i+1 < L then i+1 else -1) ∧
      (∀ i, 0 ≤ i → i < L → g.lookupB i = if i+2 < L then i+2 else -1) := by
  unfold master at h
  split at h
  · cases h
  · next hL =>
    split at h
    · cases h
    · next hs =>
      cases h
      refine ⟨by omega, by omega, by omega, by omega, by omega, rfl, rfl, rfl, rfl, rfl, rfl, ?_, ?_⟩
      · intro i h0 h1
        simp [Details.lookupA, h0, h1]
      · intro i h0 h1
        simp [Details.lookupB, h0, h1]

/-- While no lookup has ended, both positions are on the board and their sum grows by
three a round. -/
theorem pos_range (h : master L startA startB = some g) (r : Nat) (hr : g.NoEndBefore r) :
    0 ≤ (g.pos r).1 ∧ (g.pos r).1 < L ∧ 0 ≤ (g.pos r).2 ∧ (g.pos r).2 < L ∧
      (g.pos r).1 + (g.pos r).2 = startA + startB + 3*r := by
  obtain ⟨hL, ha0, ha1, hb0, hb1, -, hend, hsa, hsb, -, -, hA, hB⟩ := master_some h
  induction r with
  | zero => simp only [Details.pos, hsa, hsb]; omega
  | succ r ih =>
    obtain ⟨h0, h1, h2, h3, hsum⟩ := ih fun k hk => hr k (by omega)
    have hne := hr r (by omega)
    simp only [Details.EndsAt, hend, hA _ h2 h3, hB _ h0 h1] at hne
    simp only [Details.pos, hA _ h2 h3, hB _ h0 h1]
    split at hne <;> split at hne <;> simp_all
    omega

/-- The messages of a round that is played: the end marker or a position on the board. -/
theorem lookup_range (h : master L startA startB = some g) (r : Nat) (hr : g.NoEndBefore r) :
    (g.lookupB (g.pos r).1 = g.endMark ∨
      (0 ≤ g.lookupB (g.pos r).1 ∧ g.lookupB (g.pos r).1 < L)) ∧
    (g.lookupA (g.pos r).2 = g.endMark ∨
      (0 ≤ g.lookupA (g.pos r).2 ∧ g.lookupA (g.pos r).2 < L)) := by
  obtain ⟨hL, -, -, -, -, -, hend, -, -, -, -, hA, hB⟩ := master_some h
  obtain ⟨h0, h1, h2, h3, -⟩ := pos_range h r hr
  rw [hA _ h2 h3, hB _ h0 h1, hend]
  split <;> split <;> omega

theorem round_lt (h : master L startA startB = some g) (r : Nat) (hr : g.NoEndBefore r) :
    r < L.toNat := by
  obtain ⟨-, ha0, -, hb0, -⟩ := master_some h
  obtain ⟨-, h1, -, h3, hsum⟩ := pos_range h r hr
  omega

end tables

/-- The first round that ends is the only one both processes can stop in. -/
theorem end_unique {g : Details} {r r' : Nat} (h : g.EndsAt r) (hn : g.NoEndBefore r)
    (h' : g.EndsAt r') (hn' : g.NoEndBefore r') : r = r' := by
  rcases Nat.lt_trichotomy r r' with hlt | heq | hgt
  · exact absurd h (hn' r hlt)
  · exact heq
  · exact absurd h' (hn r' hgt)

/-! Counting the messages each process has sent and received so far. -/

def PcA.sends : PcA → Nat
  | .top r _ => r
  | .sent r _ | .recv r | .got r _ | .exited r => r+1

def PcA.receives (g : Details) : PcA → Nat
  | .top r _ | .sent r _ | .recv r => r
  | .got r _ => r+1
  | .exited r => if g.lookupB (g.pos r).1 = g.endMark then r else r+1

def PcB.receives : PcB → Nat
  | .recv r _ => r
  | .got r _ _ | .sent r _ _ | .exited r => r+1

def PcB.sends : PcB → Nat
  | .recv r _ | .got r _ _ => r
  | .sent r _ _ | .exited r => r+1

/-- What A knows at each point of its loop. -/
def PcA.Ok (g : Details) (doneA : Int) : PcA → Prop
  | .top r a => g.NoEndBefore r ∧ a = (g.pos r).1
  | .sent r nextB => g.NoEndBefore r ∧ nextB = g.lookupB (g.pos r).1
  | .recv r => g.NoEndBefore r ∧ g.lookupB (g.pos r).1 ≠ g.endMark
  | .got r nextA => g.NoEndBefore r ∧ g.lookupB (g.pos r).1 ≠ g.endMark ∧
      nextA = g.lookupA (g.pos r).2
  | .exited r => g.NoEndBefore r ∧ g.EndsAt r ∧ doneA = 1

def PcB.Ok (g : Details) (doneB : Int) : PcB → Prop
  | .recv r b => g.NoEndBefore r ∧ b = (g.pos r).2
  | .got r b nextB => g.NoEndBefore r ∧ b = (g.pos r).2 ∧ nextB = g.lookupB (g.pos r).1
  | .sent r nextB nextA => g.NoEndBefore r ∧ nextB = g.lookupB (g.pos r).1 ∧
      nextA = g.lookupA (g.pos r).2
  | .exited r => g.NoEndBefore r ∧ g.EndsAt r ∧ doneB = 1

/-- A mailbox of the game and the at most one message in it. -/
structure BoxIs (b : Mailbox) (closed : Bool) (l : List Int) : Prop where
  ok : b.Ok
  used : b.used = true
  closed : b.closed = closed
  pending : b.pending = l

/-- The messages in flight when `c` of the `n` messages `m 0, m 1, ...` have arrived and
at most one is still to come. -/
def inFlight (m : Nat → Int) (c n : Nat) : List Int := if c < n then [m c] else []

@[simp] theorem inFlight_self (m : Nat → Int) (n : Nat) : inFlight m n n = [] := by
  simp [inFlight]

@[simp] theorem inFlight_succ (m : Nat → Int) (n : Nat) : inFlight m n (n+1) = [m n] := by
  simp [inFlight]

theorem inFlight_length (m : Nat → Int) (c n : Nat) : (inFlight m c n).length ≤ 1 := by
  unfold inFlight
  split <;> simp

def Details.msgB (g : Details) (r : Nat) : Int := g.lookupB (g.pos r).1
def Details.msgA (g : Details) (r : Nat) : Int := g.lookupA (g.pos r).2

/-- The invariant of the game started from the page `g`. -/
structure Inv (g : Details) (s : State) : Prop where
  page : s.g = { g with doneA := s.g.doneA, doneB := s.g.doneB }
  a : s.pcA.Ok g s.g.doneA
  b : s.pcB.Ok g s.g.doneB
  order : s.pcA.receives g ≤ s.pcB.sends ∧ s.pcB.sends ≤ s.pcB.receives ∧
    s.pcB.receives ≤ s.pcA.sends ∧ s.pcA.sends ≤ s.pcA.receives g + 1
  ab : BoxIs s.ab s.verdict.isSome (inFlight g.msgB s.pcB.receives s.pcA.sends)
  ba : BoxIs s.ba s.verdict.isSome (inFlight g.msgA (s.pcA.receives g) s.pcB.sends)
  verdict : ∀ v, s.verdict = some v → v = .win ∧ s.ExitedA ∧ s.ExitedB

theorem boxIs_fresh (key : Int) : BoxIs (freshBox key) false [] where
  ok := (⟨by simp [freshBox, Mailbox.init, mboxCap], by simp [freshBox, Mailbox.init],
    by simp [freshBox, Mailbox.init]⟩ : (freshBox key).Ok)
  used := rfl
  closed := rfl
  pending := rfl

theorem BoxIs.count_eq {b : Mailbox} {c : Bool} {l : List Int} (h : BoxIs b c l) :
    b.count = l.length := by
  have hlen := congrArg List.length h.pending
  have hc := h.ok.count
  simp only [Mailbox.pending, Ring.contents_length] at hlen
  omega

theorem BoxIs.send {b : Mailbox} {l : List Int} (h : BoxIs b false l) (hl : l.length < mboxCap)
    (msg : Int) : ∃ b', sendTo b msg = some b' ∧ BoxIs b' false (l ++ [msg]) := by
  have hc : b.count ≠ mboxCap := by
    rw [h.count_eq]
    omega
  refine ⟨b.put msg, ?_, ok_put h.ok hc msg, h.used, h.closed, ?_⟩
  · simp [sendTo, Mailbox.mboxSend, Mailbox.sendLoop, h.used, h.closed, hc]
  · rw [pending_put h.ok hc, h.pending]

theorem BoxIs.recv {b : Mailbox} {v : Int} {l : List Int} (h : BoxIs b false (v :: l)) :
    ∃ b', recvLoc b = some (v, b') ∧ BoxIs b' false l := by
  have hc : b.count ≠ 0 := by
    rw [h.count_eq]
    simp only [List.length_cons]
    omega
  have hp := pending_take h.ok hc
  rw [h.pending] at hp
  obtain ⟨hv, hl⟩ := List.cons.inj hp
  refine ⟨b.take, ?_, ok_take h.ok hc, h.used, h.closed, hl.symm⟩
  simp [recvLoc, Mailbox.mboxRecv, Mailbox.recvLoop, h.used, h.closed, hc, hv]

theorem BoxIs.recv_nil {b : Mailbox} (h : BoxIs b false []) : recvLoc b = none := by
  have hc : b.count = 0 := by simpa using h.count_eq
  simp [recvLoc, Mailbox.mboxRecv, Mailbox.recvLoop, h.used, h.closed, hc]

/-- With at most one message to come a receive gets it or blocks. -/
theorem BoxIs.ready {b : Mailbox} {m : Nat → Int} {c n : Nat} (h : BoxIs b false (inFlight m c n))
    (hle : c ≤ n) (hone : n ≤ c+1) :
    (n = c+1 ∧ ∃ b', recvLoc b = some (m c, b') ∧ BoxIs b' false []) ∨
      (n = c ∧ recvLoc b = none) := by
  by_cases hlt : c < n
  · have hn : n = c+1 := by omega
    rw [hn, inFlight_succ] at h
    exact .inl ⟨hn, h.recv⟩
  · have hn : n = c := by omega
    rw [hn, inFlight_self] at h
    exact .inr ⟨hn, h.recv_nil⟩

/-- With no message to come a send has room. -/
theorem BoxIs.room {b : Mailbox} {m : Nat → Int} {c n : Nat} (h : BoxIs b false (inFlight m c n))
    (hn : n = c) (msg : Int) : ∃ b', sendTo b msg = some b' ∧ BoxIs b' false [msg] := by
  rw [hn, inFlight_self] at h
  exact h.send (by simp [mboxCap]) msg

section page
variable {g p : Details} {x y : Int} (h : p = { g with doneA := x, doneB := y })
include h

theorem page_lookupB (a : Int) : p.lookupB a = g.lookupB a := by
  rw [h]
  rfl

theorem page_lookupA (b : Int) : p.lookupA b = g.lookupA b := by
  rw [h]
  rfl

theorem page_endMark : p.endMark = g.endMark := by
  rw [h]

end page

section invariant
variable {g : Details} {s t : State}

theorem inv_init (g : Details) (abKey baKey : Int) : Inv g (State.init g abKey baKey) where
  page := rfl
  a := by simp [State.init, PcA.Ok, Details.NoEndBefore, Details.pos]
  b := by simp [State.init, PcB.Ok, Details.NoEndBefore, Details.pos]
  order := by simp [State.init, PcA.receives, PcA.sends, PcB.receives, PcB.sends]
  ab := by simpa [State.init, PcA.sends, PcB.receives] using boxIs_fresh abKey
  ba := by simpa [State.init, PcA.receives, PcB.sends] using boxIs_fresh baKey
  verdict := by intro v hv; cases hv

theorem lookupB_page (h : Inv g s) (a : Int) : s.g.lookupB a = g.lookupB a := page_lookupB h.page a

theorem lookupA_page (h : Inv g s) (b : Int) : s.g.lookupA b = g.lookupA b := page_lookupA h.page b

theorem endMark_page (h : Inv g s) : s.g.endMark = g.endMark := page_endMark h.page

/-- Nothing has been printed while a process is still in its loop. -/
theorem verdict_none (h : Inv g s) (hrun : ¬ s.ExitedA ∨ ¬ s.ExitedB) : s.verdict = none := by
  cases hv : s.verdict with
  | none => rfl
  | some v =>
    obtain ⟨-, hA, hB⟩ := h.verdict v hv
    cases hrun with
    | inl hn => exact absurd hA hn
    | inr hn => exact absurd hB hn

theorem noEndBefore_succ {r : Nat} (h : g.NoEndBefore r) (hr : ¬ g.EndsAt r) :
    g.NoEndBefore (r+1) := by
  intro k hk
  by_cases he : k = r
  · subst he
    exact hr
  · exact h k (by omega)

/-- A step of A that leaves the mailboxes alone and counts the same messages. -/
theorem inv_moveA (h : Inv g s) (hrun : ¬ s.ExitedA) (d : Int) (pc : PcA)
    (hok : pc.Ok g d) (hsends : pc.sends = s.pcA.sends)
    (hrecvs : pc.receives g = s.pcA.receives g) :
    Inv g { s with g := { s.g with doneA := d }, pcA := pc } := by
  have hv := verdict_none h (.inl hrun)
  refine ⟨?_, hok, h.b, ?_, ?_, ?_, ?_⟩
  · rw [h.page]
  · rw [hsends, hrecvs]; exact h.order
  · rw [hsends]; exact h.ab
  · rw [hrecvs]; exact h.ba
  · intro v hv'
    rw [hv] at hv'
    cases hv'

section stepsA
variable {r : Nat} {a : Int} (h : Inv g s)
include h

/-- At its loop head A finds its mailbox empty. -/
theorem room_ab (hpc : s.pcA = .top r a) (msg : Int) :
    s.pcB.receives = r ∧ ∃ b', sendTo s.ab msg = some b' ∧ BoxIs b' false [msg] := by
  have hord := h.order
  have hab := h.ab
  rw [hpc, verdict_none h (.inl (by simp [State.ExitedA, hpc]))] at hab
  simp only [hpc, PcA.sends, PcA.receives] at hord hab
  exact ⟨by omega, hab.room (by omega) msg⟩

/-- In its receive A gets the message of the round, or blocks while B has not sent it. -/
theorem ready_ba (hpc : s.pcA = .recv r) :
    (s.pcB.sends = r+1 ∧ ∃ b', recvLoc s.ba = some (g.msgA r, b') ∧ BoxIs b' false []) ∨
      (s.pcB.sends = r ∧ recvLoc s.ba = none) := by
  have hord := h.order
  have hba := h.ba
  rw [hpc, verdict_none h (.inl (by simp [State.ExitedA, hpc]))] at hba
  simp only [hpc, PcA.sends, PcA.receives] at hord hba
  exact hba.ready (by omega) (by omega)

theorem inv_topA (hpc : s.pcA = .top r a) (hs : s.stepA = some t) : Inv g t := by
  have hv : s.verdict = none := verdict_none h (.inl (by simp [State.ExitedA, hpc]))
  have hord := h.order
  have hba := h.ba
  have hloc := h.a
  rw [hpc] at hord hba hloc
  simp only [PcA.sends, PcA.receives] at hord
  obtain ⟨hcB, b', hsend, hb'⟩ := room_ab h hpc (s.g.lookupB a)
  simp only [State.stepA, hpc, hsend, Option.map_some, Option.some.injEq] at hs
  subst hs
  have hmsg : s.g.lookupB a = g.msgB r := by rw [lookupB_page h, hloc.2]; rfl
  refine ⟨h.page, ⟨hloc.1, hmsg⟩, h.b, ?_, ?_, hba, ?_⟩
  · simp only [PcA.sends, PcA.receives]; omega
  · simpa [hv, PcA.sends, hcB, hmsg] using hb'
  · intro v hv'
    rw [hv] at hv'
    cases hv'

theorem inv_sentA {nextB : Int} (hpc : s.pcA = .sent r nextB) (hs : s.stepA = some t) :
    Inv g t := by
  have hrun : ¬ s.ExitedA := by simp [State.ExitedA, hpc]
  have hloc := h.a
  rw [hpc] at hloc
  simp only [State.stepA, hpc] at hs
  split at hs
  · next he =>
    have hend : g.lookupB (g.pos r).1 = g.endMark := by rw [← hloc.2, he, endMark_page h]
    cases hs
    exact inv_moveA h hrun 1 (.exited r) ⟨hloc.1, .inl hend, rfl⟩
      (by rw [hpc]; rfl) (by rw [hpc]; simp [PcA.receives, hend])
  · next he =>
    rw [endMark_page h] at he
    cases hs
    exact inv_moveA h hrun s.g.doneA (.recv r) ⟨hloc.1, by rw [← hloc.2]; exact he⟩
      (by rw [hpc]; rfl) (by rw [hpc]; rfl)

theorem inv_recvA (hpc : s.pcA = .recv r) (hs : s.stepA = some t) : Inv g t := by
  have hv : s.verdict = none := verdict_none h (.inl (by simp [State.ExitedA, hpc]))
  have hord := h.order
  have hab := h.ab
  have hloc := h.a
  rw [hpc] at hord hab hloc
  simp only [PcA.sends, PcA.receives] at hord
  cases ready_ba h hpc with
  | inl hready =>
    obtain ⟨hsB, b', hrecv, hb'⟩ := hready
    simp only [State.stepA, hpc, hrecv, Option.map_some, Option.some.injEq] at hs
    subst hs
    refine ⟨h.page, ⟨hloc.1, hloc.2, rfl⟩, h.b, ?_, hab, ?_, ?_⟩
    · simp only [PcA.sends, PcA.receives]; omega
    · simpa [hv, PcA.receives, hsB] using hb'
    · intro v hv'
      rw [hv] at hv'
      cases hv'
  | inr hblocked =>
    simp only [State.stepA, hpc, hblocked.2, Option.map_none] at hs
    cases hs

theorem inv_gotA {nextA : Int} (hpc : s.pcA = .got r nextA) (hs : s.stepA = some t) :
    Inv g t := by
  have hrun : ¬ s.ExitedA := by simp [State.ExitedA, hpc]
  have hloc := h.a
  rw [hpc] at hloc
  obtain ⟨hne, hnb, hna⟩ := hloc
  simp only [State.stepA, hpc] at hs
  split at hs
  · next he =>
    have hend : g.lookupA (g.pos r).2 = g.endMark := by rw [← hna, he, endMark_page h]
    cases hs
    exact inv_moveA h hrun 1 (.exited r) ⟨hne, .inr hend, rfl⟩
      (by rw [hpc]; rfl) (by rw [hpc]; simp [PcA.receives, hnb])
  · next he =>
    rw [endMark_page h] at he
    have hcont : ¬ g.EndsAt r := by
      intro hor
      cases hor with
      | inl hB => exact hnb hB
      | inr hA => exact he (by rw [hna, hA])
    cases hs
    exact inv_moveA h hrun s.g.doneA (.top (r+1) nextA)
      ⟨noEndBefore_succ hne hcont, hna⟩ (by rw [hpc]; rfl) (by rw [hpc]; rfl)

theorem inv_stepA (hs : s.stepA = some t) : Inv g t := by
  cases hpc : s.pcA with
  | top r a => exact inv_topA h hpc hs
  | sent r nextB => exact inv_sentA h hpc hs
  | recv r => exact inv_recvA h hpc hs
  | got r nextA => exact inv_gotA h hpc hs
  | exited r =>
    simp only [State.stepA, hpc] at hs
    cases hs

end stepsA

/-- A step of B that leaves the mailboxes alone and counts the same messages. -/
theorem inv_moveB (h : Inv g s) (hrun : ¬ s.ExitedB) (d : Int) (pc : PcB)
    (hok : pc.Ok g d) (hsends : pc.sends = s.pcB.sends) (hrecvs : pc.receives = s.pcB.receives) :
    Inv g { s with g := { s.g with doneB := d }, pcB := pc } := by
  have hv := verdict_none h (.inr hrun)
  refine ⟨?_, h.a, hok, ?_, ?_, ?_, ?_⟩
  · rw [h.page]
  · rw [hsends, hrecvs]; exact h.order
  · rw [hrecvs]; exact h.ab
  · rw [hsends]; exact h.ba
  · intro v hv'
    rw [hv] at hv'
    cases hv'

section stepsB
variable {r : Nat} {b : Int} (h : Inv g s)
include h

/-- When B has received, A has taken all that B sent before. -/
theorem room_ba {nextB : Int} (hpc : s.pcB = .got r b nextB) (msg : Int) :
    s.pcA.receives g = r ∧ ∃ b', sendTo s.ba msg = some b' ∧ BoxIs b' false [msg] := by
  have hord := h.order
  have hba := h.ba
  rw [hpc, verdict_none h (.inr (by simp [State.ExitedB, hpc]))] at hba
  simp only [hpc, PcB.sends, PcB.receives] at hord hba
  exact ⟨by omega, hba.room (by omega) msg⟩

theorem ready_ab (hpc : s.pcB = .recv r b) :
    (s.pcA.sends = r+1 ∧ ∃ b', recvLoc s.ab = some (g.msgB r, b') ∧ BoxIs b' false []) ∨
      (s.pcA.sends = r ∧ recvLoc s.ab = none) := by
  have hord := h.order
  have hab := h.ab
  rw [hpc, verdict_none h (.inr (by simp [State.ExitedB, hpc]))] at hab
  simp only [hpc, PcB.sends, PcB.receives] at hord hab
  exact hab.ready (by omega) (by omega)

theorem inv_recvB (hpc : s.pcB = .recv r b) (hs : s.stepB = some t) : Inv g t := by
  have hv : s.verdict = none := verdict_none h (.inr (by simp [State.ExitedB, hpc]))
  have hord := h.order
  have hba := h.ba
  have hloc := h.b
  rw [hpc] at hord hba hloc
  simp only [PcB.sends, PcB.receives] at hord
  cases ready_ab h hpc with
  | inl hready =>
    obtain ⟨hsA, b', hrecv, hb'⟩ := hready
    simp only [State.stepB, hpc, hrecv, Option.map_some, Option.some.injEq] at hs
    subst hs
    refine ⟨h.page, h.a, ⟨hloc.1, hloc.2, rfl⟩, ?_, ?_, hba, ?_⟩
    · simp only [PcB.sends, PcB.receives]; omega
    · simpa [hv, PcB.receives, hsA] using hb'
    · intro v hv'
      rw [hv] at hv'
      cases hv'
  | inr hblocked =>
    simp only [State.stepB, hpc, hblocked.2, Option.map_none] at hs
    cases hs

theorem inv_gotB {nextB : Int} (hpc : s.pcB = .got r b nextB) (hs : s.stepB = some t) :
    Inv g t := by
  have hv : s.verdict = none := verdict_none h (.inr (by simp [State.ExitedB, hpc]))
  have hord := h.order
  have hab := h.ab
  have hloc := h.b
  rw [hpc] at hord hab hloc
  simp only [PcB.sends, PcB.receives] at hord
  obtain ⟨hcA, b', hsend, hb'⟩ := room_ba h hpc (s.g.lookupA b)
  simp only [State.stepB, hpc, hsend, Option.map_some, Option.some.injEq] at hs
  subst hs
  have hmsg : s.g.lookupA b = g.msgA r := by rw [lookupA_page h, hloc.2.1]; rfl
  refine ⟨h.page, h.a, ⟨hloc.1, hloc.2.2, hmsg⟩, ?_, hab, ?_, ?_⟩
  · simp only [PcB.sends, PcB.receives]; omega
  · simpa [hv, PcB.sends, hcA, hmsg] using hb'
  · intro v hv'
    rw [hv] at hv'
    cases hv'

theorem inv_sentB {nextB nextA : Int} (hpc : s.pcB = .sent r nextB nextA)
    (hs : s.stepB = some t) : Inv g t := by
  have hrun : ¬ s.ExitedB := by simp [State.ExitedB, hpc]
  have hloc := h.b
  rw [hpc] at hloc
  obtain ⟨hne, hnb, hna⟩ := hloc
  have hexit (hend : g.EndsAt r) :
      Inv g { s with g := { s.g with doneB := 1 }, pcB := .exited r } :=
    inv_moveB h hrun 1 (.exited r) ⟨hne, hend, rfl⟩ (by rw [hpc]; rfl) (by rw [hpc]; rfl)
  simp only [State.stepB, hpc] at hs
  split at hs
  · next he =>
    cases hs
    exact hexit (.inl (by rw [← hnb, he, endMark_page h]))
  · next heB =>
    split at hs
    · next he =>
      cases hs
      exact hexit (.inr (by rw [← hna, he, endMark_page h]))
    · next heA =>
      have hcont : ¬ g.EndsAt r := by
        intro hor
        cases hor with
        | inl hB => exact heB (by rw [hnb, hB, endMark_page h])
        | inr hA => exact heA (by rw [hna, hA, endMark_page h])
      cases hs
      exact inv_moveB h hrun s.g.doneB (.recv (r+1) nextB)
        ⟨noEndBefore_succ hne hcont, hnb⟩ (by rw [hpc]; rfl) (by rw [hpc]; rfl)

theorem inv_stepB (hs : s.stepB = some t) : Inv g t := by
  cases hpc : s.pcB with
  | recv r b => exact inv_recvB h hpc hs
  | got r b nextB => exact inv_gotB h hpc hs
  | sent r nextB nextA => exact inv_sentB h hpc hs
  | exited r =>
    simp only [State.stepB, hpc] at hs
    cases hs

end stepsB

theorem inv_stepMaster (h : Inv g s) (hs : s.stepMaster = some t) : Inv g t := by
  have hab := h.ab
  have hba := h.ba
  unfold State.stepMaster at hs
  split at hs
  · next rA rB hv hA hB =>
    have ha := h.a
    have hb := h.b
    rw [hA] at ha
    rw [hB] at hb
    have hwin : s.g.verdict = .win := by
      simp [Details.verdict, ha.2.2, hb.2.2]
    cases hs
    refine ⟨h.page, h.a, h.b, h.order, ?_, ?_, ?_⟩
    · exact ⟨⟨hab.ok.head, hab.ok.count, hab.ok.tail⟩, hab.used, rfl, hab.pending⟩
    · exact ⟨⟨hba.ok.head, hba.ok.count, hba.ok.tail⟩, hba.used, rfl, hba.pending⟩
    · intro v hv'
      cases hv'
      exact ⟨hwin, ⟨rA, hA⟩, ⟨rB, hB⟩⟩
  · cases hs

theorem inv_step {w : Who} (h : Inv g s) (hs : Step s w t) : Inv g t := by
  cases w with
  | A => exact inv_stepA h hs
  | B => exact inv_stepB h hs
  | master => exact inv_stepMaster h hs

/-! No deadlock. -/

theorem blockedA_sends (h : Inv g s) {r : Nat} (hpc : s.pcA = .recv r)
    (hb : recvLoc s.ba = none) : s.pcB.sends = r := by
  cases ready_ba h hpc with
  | inl hready =>
    obtain ⟨-, b', hrecv, -⟩ := hready
    rw [hb] at hrecv
    cases hrecv
  | inr hblocked => exact hblocked.1

theorem blockedB_sends (h : Inv g s) {r : Nat} {b : Int} (hpc : s.pcB = .recv r b)
    (hb : recvLoc s.ab = none) : s.pcA.sends = r := by
  cases ready_ab h hpc with
  | inl hready =>
    obtain ⟨-, b', hrecv, -⟩ := hready
    rw [hb] at hrecv
    cases hrecv
  | inr hblocked => exact hblocked.1

theorem not_both_blocked (h : Inv g s) : ¬ (s.BlockedA ∧ s.BlockedB) := by
  intro hb
  obtain ⟨⟨r, hA, hba⟩, ⟨r', b, hB, hab⟩⟩ := hb
  have h1 := blockedA_sends h hA hba
  have h2 := blockedB_sends h hB hab
  simp only [hA, hB, PcA.sends, PcB.sends] at h1 h2
  omega

theorem not_blockedA_exitedB (h : Inv g s) : ¬ (s.BlockedA ∧ s.ExitedB) := by
  intro hb
  obtain ⟨⟨r, hA, hba⟩, ⟨r', hB⟩⟩ := hb
  have h1 := blockedA_sends h hA hba
  have ha := h.a
  have hb := h.b
  simp only [hA, hB, PcB.sends, PcA.Ok, PcB.Ok] at h1 ha hb
  exact ha.1 r' (by omega) hb.2.1

theorem not_exitedA_blockedB (h : Inv g s) : ¬ (s.ExitedA ∧ s.BlockedB) := by
  intro hb
  obtain ⟨⟨r, hA⟩, ⟨r', b, hB, hab⟩⟩ := hb
  have h1 := blockedB_sends h hB hab
  have ha := h.a
  have hb := h.b
  simp only [hA, hB, PcA.sends, PcA.Ok, PcB.Ok] at h1 ha hb
  exact hb.1 r (by omega) ha.2.1

theorem stepA_none (h : Inv g s) (hs : s.stepA = none) : s.BlockedA ∨ s.ExitedA := by
  cases hpc : s.pcA with
  | top r a =>
    obtain ⟨-, b', hsend, -⟩ := room_ab h hpc (s.g.lookupB a)
    simp [State.stepA, hpc, hsend] at hs
  | sent r nextB =>
    simp only [State.stepA, hpc] at hs
    split at hs <;> cases hs
  | recv r =>
    simp only [State.stepA, hpc] at hs
    exact .inl ⟨r, hpc, by simpa using hs⟩
  | got r nextA =>
    simp only [State.stepA, hpc] at hs
    split at hs <;> cases hs
  | exited r => exact .inr ⟨r, hpc⟩

theorem stepB_none (h : Inv g s) (hs : s.stepB = none) : s.BlockedB ∨ s.ExitedB := by
  cases hpc : s.pcB with
  | recv r b =>
    simp only [State.stepB, hpc] at hs
    exact .inl ⟨r, b, hpc, by simpa using hs⟩
  | got r b nextB =>
    obtain ⟨-, b', hsend, -⟩ := room_ba h hpc (s.g.lookupA b)
    simp [State.stepB, hpc, hsend] at hs
  | sent r nextB nextA =>
    simp only [State.stepB, hpc] at hs
    split at hs
    · cases hs
    · split at hs <;> cases hs
  | exited r => exact .inr ⟨r, hpc⟩

/-- A state without a step is the end of the game, and the game is won. -/
theorem stuck_is_win (h : Inv g s) (hstuck : ∀ w, s.step w = none) :
    s.g.doneA = 1 ∧ s.g.doneB = 1 ∧ s.verdict = some .win := by
  have hA := stepA_none h (hstuck .A)
  have hB := stepB_none h (hstuck .B)
  have hexit : s.ExitedA ∧ s.ExitedB := by
    cases hA with
    | inl hbA =>
      cases hB with
      | inl hbB => exact absurd ⟨hbA, hbB⟩ (not_both_blocked h)
      | inr heB => exact absurd ⟨hbA, heB⟩ (not_blockedA_exitedB h)
    | inr heA =>
      cases hB with
      | inl hbB => exact absurd ⟨heA, hbB⟩ (not_exitedA_blockedB h)
      | inr heB => exact ⟨heA, heB⟩
  obtain ⟨⟨r, hrA⟩, ⟨r', hrB⟩⟩ := hexit
  have ha := h.a
  have hb := h.b
  rw [hrA] at ha
  rw [hrB] at hb
  refine ⟨ha.2.2, hb.2.2, ?_⟩
  cases hv : s.verdict with
  | none =>
    have hm := hstuck .master
    simp [State.step, State.stepMaster, hv, hrA, hrB] at hm
  | some v => rw [(h.verdict v hv).1]

/-! Every run is finite: each step uses up some of a bounded amount of work. -/

def PcA.work : PcA → Nat
  | .top r _ => 4*r
  | .sent r _ => 4*r+1
  | .recv r => 4*r+2
  | .got r _ => 4*r+3
  | .exited r => 4*r+4

def PcB.work : PcB → Nat
  | .recv r _ => 3*r
  | .got r _ _ => 3*r+1
  | .sent r _ _ => 3*r+2
  | .exited r => 3*r+3

def State.work (s : State) : Nat := s.pcA.work + s.pcB.work + s.verdict.toList.length

theorem work_step {w : Who} (hs : Step s w t) : s.work + 1 ≤ t.work := by
  cases w with
  | A =>
    simp only [Step, State.step, State.stepA] at hs
    split at hs
    · next hpc =>
      obtain ⟨b, -, rfl⟩ := Option.map_eq_some_iff.mp hs
      simp only [State.work, hpc, PcA.work]
      omega
    · next hpc => split at hs <;> cases hs <;> simp only [State.work, hpc, PcA.work] <;> omega
    · next hpc =>
      obtain ⟨b, -, rfl⟩ := Option.map_eq_some_iff.mp hs
      simp only [State.work, hpc, PcA.work]
      omega
    · next hpc => split at hs <;> cases hs <;> simp only [State.work, hpc, PcA.work] <;> omega
    · cases hs
  | B =>
    simp only [Step, State.step, State.stepB] at hs
    split at hs
    · next hpc =>
      obtain ⟨b, -, rfl⟩ := Option.map_eq_some_iff.mp hs
      simp only [State.work, hpc, PcB.work]
      omega
    · next hpc =>
      obtain ⟨b, -, rfl⟩ := Option.map_eq_some_iff.mp hs
      simp only [State.work, hpc, PcB.work]
      omega
    · next hpc =>
      split at hs
      · cases hs
        simp only [State.work, hpc, PcB.work]
        omega
      · split at hs <;> cases hs <;> simp only [State.work, hpc, PcB.work] <;> omega
    · cases hs
  | master =>
    simp only [Step, State.step, State.stepMaster] at hs
    split at hs
    · next hv _ _ =>
      cases hs
      simp [State.work, hv]
    · cases hs

theorem work_le {L startA startB : Int} (hg : master L startA startB = some g) (h : Inv g s) :
    s.work ≤ 7*L.toNat + 1 := by
  have hA : s.pcA.work ≤ 4*L.toNat := by
    have ha := h.a
    cases hpc : s.pcA with
    | top r _ | sent r _ | recv r | got r _ | exited r =>
      rw [hpc] at ha
      have := round_lt hg r ha.1
      simp only [PcA.work]
      omega
  have hB : s.pcB.work ≤ 3*L.toNat := by
    have hb := h.b
    cases hpc : s.pcB with
    | recv r _ | got r _ _ | sent r _ _ | exited r =>
      rw [hpc] at hb
      have := round_lt hg r hb.1
      simp only [PcB.work]
      omega
  have hv : s.verdict.toList.length ≤ 1 := by cases s.verdict <;> simp
  simp only [State.work]
  omega

end invariant

theorem inFlight_range {m : Nat → Int} {c n : Nat} {P : Int → Prop} (h : c < n → P (m c)) :
    ∀ v ∈ inFlight m c n, P v := by
  intro v hv
  unfold inFlight at hv
  split at hv
  · next hlt =>
    rw [List.mem_singleton.mp hv]
    exact h hlt
  · cases hv

/-- Every message on its way is the end marker or a position on the board. -/
theorem messages_range {L startA startB : Int} {g : Details} {s : State}
    (hg : master L startA startB = some g) (h : Inv g s) :
    ∀ m, m ∈ s.ab.pending ∨ m ∈ s.ba.pending → m = g.endMark ∨ (0 ≤ m ∧ m < L) := by
  have hord := h.order
  have hA : s.pcB.receives < s.pcA.sends → g.NoEndBefore s.pcB.receives := by
    intro hlt k hk
    have ha := h.a
    cases hpc : s.pcA with
    | top r _ | sent r _ | recv r | got r _ | exited r =>
      rw [hpc] at ha hlt
      simp only [PcA.sends] at hlt
      exact ha.1 k (by omega)
  have hB : s.pcA.receives g < s.pcB.sends → g.NoEndBefore (s.pcA.receives g) := by
    intro hlt k hk
    have hb := h.b
    cases hpc : s.pcB with
    | recv r _ | got r _ _ | sent r _ _ | exited r =>
      rw [hpc] at hb hlt
      simp only [PcB.sends] at hlt
      exact hb.1 k (by omega)
  intro m hm
  cases hm with
  | inl hm =>
    rw [h.ab.pending] at hm
    exact inFlight_range (P := fun m => m = g.endMark ∨ (0 ≤ m ∧ m < L))
      (fun hlt => (lookup_range hg _ (hA hlt)).1) m hm
  | inr hm =>
    rw [h.ba.pending] at hm
    exact inFlight_range (P := fun m => m = g.endMark ∨ (0 ≤ m ∧ m < L))
      (fun hlt => (lookup_range hg _ (hB hlt)).2) m hm

/-- The maze protocol: no deadlock, bounded runs, one message at a time, both processes
stop in the first round in which a lookup gives the end marker, and a run that cannot be
continued is won. -/
theorem maze_protocol {L startA startB : Int} {g : Details}
    (hg : master L startA startB = some g) (abKey baKey : Int) {tr : List Who} {s : State}
    (hr : Run Step (State.init g abKey baKey) tr s) :
    ¬ (s.BlockedA ∧ s.BlockedB) ∧ ¬ (s.BlockedA ∧ s.ExitedB) ∧ ¬ (s.ExitedA ∧ s.BlockedB) ∧
    tr.length ≤ 7*L.toNat + 1 ∧
    s.ab.pending.length ≤ 1 ∧ s.ba.pending.length ≤ 1 ∧
    (∀ m, m ∈ s.ab.pending ∨ m ∈ s.ba.pending → m = g.endMark ∨ (0 ≤ m ∧ m < L)) ∧
    (∀ r a, s.pcA = .top r a → a = (g.pos r).1) ∧
    (∀ r b, s.pcB = .recv r b → b = (g.pos r).2) ∧
    (∀ r, s.pcA = .exited r ∨ s.pcB = .exited r → g.EndsAt r ∧ g.NoEndBefore r) ∧
    (∀ r r', s.pcA = .exited r → s.pcB = .exited r' → r = r') ∧
    ((∀ w, s.step w = none) → s.g.doneA = 1 ∧ s.g.doneB = 1 ∧ s.verdict = some .win) := by
  have key : Inv g s ∧ tr.length ≤ s.work := by
    refine hr.history (P := fun tr s => Inv g s ∧ tr.length ≤ s.work)
      ⟨inv_init g abKey baKey, by simp⟩ ?_
    intro tr s w t _ hp hs
    have := work_step hs
    refine ⟨inv_step hp.1 hs, ?_⟩
    simp only [List.length_append, List.length_singleton]
    omega
  obtain ⟨h, hlen⟩ := key
  have ha := h.a
  have hb := h.b
  have hexit : ∀ r, s.pcA = .exited r ∨ s.pcB = .exited r → g.EndsAt r ∧ g.NoEndBefore r := by
    intro r hor
    cases hor with
    | inl hpc => rw [hpc] at ha; exact ⟨ha.2.1, ha.1⟩
    | inr hpc => rw [hpc] at hb; exact ⟨hb.2.1, hb.1⟩
  refine ⟨not_both_blocked h, not_blockedA_exitedB h, not_exitedA_blockedB h,
    le_trans hlen (work_le hg h), ?_, ?_, messages_range hg h, ?_, ?_, hexit, ?_, stuck_is_win h⟩
  · rw [h.ab.pending]; exact inFlight_length _ _ _
  · rw [h.ba.pending]; exact inFlight_length _ _ _
  · intro r a hpc
    rw [hpc] at ha
    exact ha.2
  · intro r b hpc
    rw [hpc] at hb
    exact hb.2
  · intro r r' hA hB
    have h1 := hexit r (.inl hA)
    have h2 := hexit r' (.inr hB)
    exact end_unique h1.1 h1.2 h2.1 h2.2

def lengthEight : Details := (master 8 3 1).get rfl

/-- Two rounds on a board of length eight, and the one in which the lookup of A ends the game. -/
def threeRounds : List Who :=
  [.A, .A, .B, .B, .A, .B, .A, .A, .B, .A, .B, .B, .A, .A, .A, .B, .A, .B, .B, .master]

def played : State :=
  (threeRounds.foldlM State.step (State.init lengthEight 110 111)).get (by decide +kernel)

theorem maze_protocol_three_rounds :
    master 8 3 1 = some lengthEight ∧ Run Step (State.init lengthEight 110 111) threeRounds played ∧
      played.verdict = some .win ∧ played.pcA = .exited 2 ∧ played.pcB = .exited 2 ∧
      lengthEight.EndsAt 2 ∧ threeRounds.length ≤ 7*8 + 1 := by
  have hg : master 8 3 1 = some lengthEight := rfl
  have hr : Run Step (State.init lengthEight 110 111) threeRounds played :=
    .of_foldlM (f := State.step) (fun _ _ _ h => h) (Option.some_get _).symm
  have hA : played.pcA = .exited 2 := by decide +kernel
  have h := maze_protocol hg 110 111 hr
  refine ⟨hg, hr, by decide +kernel, hA, by decide +kernel, ?_, h.2.2.2.1⟩
  exact (h.2.2.2.2.2.2.2.2.2.1 2 (.inl hA)).1

end Xv6Labs.Maze
