import Xv6Labs.Ipc.Games
import Xv6Labs.Kit.Numbers

/-! How `master` of Task 3.2 hands numbers to `process`: `itoa10` writes them into `char`
arrays of the child, `exec` copies the strings, `atoi` reads them in the new program. An index
outside an array is an error here. -/
namespace Xv6Labs.Args
open Kit Mbox Games

/-- The array that an index is outside of: `tmp` of `itoa10`, or the one it is to fill. -/
inductive Fault where
  | tmp | dst
  deriving DecidableEq

/-- A `char` array of `n` bytes. -/
structure CharArray (n : Nat) where
  bytes : List UInt8
  size : bytes.length = n

variable {n : Nat}

def CharArray.write (s : CharArray n) (i : Nat) (c : UInt8) : Except Fault (CharArray n) :=
  if i < n then .ok ⟨s.bytes.set i c, by rw [List.length_set, s.size]⟩ else .error .dst

/-- The string in the array: what stands before the first NUL. -/
def CharArray.str (s : CharArray n) : List UInt8 := s.bytes.takeWhile (· != 0)

/-- `'-'`. -/
def minus : UInt8 := 45

/-- `'0' + d`. -/
def digitByte (d : Nat) : UInt8 := UInt8.ofNat (48 + d)

/-- The `do` loop of `itoa10`, with room for so many more entries in `tmp`. -/
def fillTmp : Nat → Nat → List UInt8 → Except Fault (List UInt8)
  | 0, _, _ => .error .tmp
  | room+1, ux, tmp =>
    let tmp := tmp ++ [digitByte (ux % 10)]
    if ux / 10 = 0 then .ok tmp else fillTmp room (ux / 10) tmp

/-- `while(n--) *s++ = tmp[n]; *s = 0;` with `s` at index `i` of its array. -/
def copyTmp (tmp : List UInt8) : Nat → CharArray n → Nat → Except Fault (CharArray n)
  | 0, s, i => s.write i 0
  | k+1, s, i =>
    match tmp[k]? with
    | none => .error .tmp
    | some c => (s.write i c).bind fun s => copyTmp tmp k s (i+1)

def itoa10 (x : Int) (s : CharArray n) : Except Fault (CharArray n) :=
  if x < 0 then do
    let s ← s.write 0 minus
    let tmp ← fillTmp 16 (uint32 (0 - uint32 x)) []
    copyTmp tmp tmp.length s 1
  else do
    let tmp ← fillTmp 16 (uint32 x) []
    copyTmp tmp tmp.length s 0

/-- The loop of `atoi`; the string ends in a NUL, which is no digit. -/
def atoiLoop : Int → List UInt8 → Int
  | acc, [] => acc
  | acc, c :: s =>
    if 48 ≤ c ∧ c ≤ 57 then atoiLoop (int32 (int32 (int32 (acc*10) + c.toNat) - 48)) s else acc

def atoi (s : List UInt8) : Int := atoiLoop 0 s

/-- `char role[8], shm[8], ab[8], ba[8]` in a child of `master`. -/
structure ChildArrays where
  role : CharArray 8
  shm : CharArray 8
  ab : CharArray 8
  ba : CharArray 8

/-- What `process` decodes of the role, the key and the two mailbox ids. -/
def passArgs (child : ChildArrays) (role key mailAb mailBa : Int) :
    Except Fault (Int × Int × Int × Int) := do
  let role ← itoa10 role child.role
  let shm ← itoa10 key child.shm
  let ab ← itoa10 mailAb child.ab
  let ba ← itoa10 mailBa child.ba
  return (atoi role.str, atoi shm.str, atoi ab.str, atoi ba.str)

/-! The specification: the decimal numeral of a number. -/

def IsInt (x : Int) : Prop := -2^31 ≤ x ∧ x < 2^31

def numeral (x : Int) : List UInt8 :=
  (if x < 0 then [minus] else []) ++ (Decimal.digits x.natAbs).reverse.map digitByte

/-- The numeral has a sign if the number is negative, then its decimal digits, the first of
which is zero only if it is the only one. -/
theorem numeral_canonical (x : Int) : ∃ ds : List Nat,
    numeral x = (if x < 0 then [minus] else []) ++ ds.map digitByte ∧ (∀ d ∈ ds, d < 10) ∧
      ds.foldl (fun m d => m*10 + d) 0 = x.natAbs ∧ ds ≠ [] ∧ (ds.head? = some 0 → ds = [0]) := by
  refine ⟨(Decimal.digits x.natAbs).reverse, rfl, ?_, Decimal.foldl_digits _, ?_, ?_⟩
  · intro d hd
    exact Decimal.digits_lt_ten (List.mem_reverse.mp hd)
  · simp [Decimal.digits]
  · intro h0
    rw [List.head?_reverse] at h0
    by_cases hx : x.natAbs = 0
    · simp [hx, Decimal.digits]
    · exact absurd h0 (Decimal.getLast_digits hx)

theorem length_numeral (x : Int) :
    (numeral x).length = (if x < 0 then 1 else 0) + (Decimal.digits x.natAbs).length := by
  rw [numeral, List.length_append, List.length_map, List.length_reverse]
  split <;> rfl

/-! Stores into an array, one after the other. -/

def CharArray.stores (s : CharArray n) : Nat → List UInt8 → Except Fault (CharArray n)
  | _, [] => .ok s
  | i, c :: l => (s.write i c).bind fun s => s.stores (i+1) l

theorem stores_error (s : CharArray n) (i : Nat) (l : List UInt8) (h : n < i + l.length)
    (hi : i ≤ n) : s.stores i l = .error .dst := by
  induction l generalizing s i with
  | nil => simp at h; omega
  | cons c l ih =>
    rw [CharArray.stores, CharArray.write]
    by_cases hlt : i < n
    · rw [if_pos hlt]
      exact ih _ _ (by simp at h; omega) (by omega)
    · rw [if_neg hlt]
      rfl

/-- Stores that fit replace as many bytes from there on. -/
theorem stores_ok (s : CharArray n) (pre l old post : List UInt8)
    (hs : s.bytes = pre ++ (old ++ post)) (hl : old.length = l.length) :
    ∃ s', s.stores pre.length l = .ok s' ∧ s'.bytes = pre ++ (l ++ post) := by
  induction l generalizing s pre old with
  | nil =>
    have hnil : old = [] := List.eq_nil_of_length_eq_zero hl
    exact ⟨s, rfl, by rw [hs, hnil]⟩
  | cons c l ih =>
    cases old with
    | nil => cases hl
    | cons o old =>
      have hlt : pre.length < n := by
        have := s.size
        rw [hs] at this
        simp only [List.length_append, List.length_cons] at this
        omega
      have hset : s.bytes.set pre.length c = (pre ++ [c]) ++ (old ++ post) := by
        rw [hs, List.set_append_right _ _ (le_refl _)]
        simp
      obtain ⟨s', hs', hb⟩ := ih ⟨s.bytes.set pre.length c, by rw [List.length_set, s.size]⟩
        (pre ++ [c]) old hset (Nat.succ.inj hl)
      refine ⟨s', ?_, by rw [hb]; simp⟩
      rw [CharArray.stores, CharArray.write, if_pos hlt]
      rw [List.length_append, List.length_singleton] at hs'
      exact hs'

/-! `itoa10` is the stores of the numeral and its NUL. -/

/-- `tmp` takes the digits as long as it has room for them. -/
theorem fillTmp_eq (room ux : Nat) (tmp : List UInt8) (h : (Decimal.digits ux).length ≤ room) :
    fillTmp room ux tmp = .ok (tmp ++ (Decimal.digits ux).map digitByte) := by
  induction room generalizing ux tmp with
  | zero => simp [Decimal.digits] at h
  | succ room ih =>
    by_cases h0 : ux / 10 = 0
    · simp [fillTmp, h0, Decimal.digits_of_lt h0]
    · rw [Decimal.digits_of_le h0] at h ⊢
      rw [List.length_cons, Nat.add_le_add_iff_right] at h
      simp [fillTmp, h0, ih _ _ h]

theorem copyTmp_eq (tmp : List UInt8) (k : Nat) (hk : k ≤ tmp.length) (s : CharArray n) (i : Nat) :
    copyTmp tmp k s i = s.stores i ((tmp.take k).reverse ++ [0]) := by
  induction k generalizing s i with
  | zero =>
    simp only [copyTmp, List.take_zero, List.reverse_nil, List.nil_append, CharArray.stores]
    cases s.write i 0 <;> rfl
  | succ k ih =>
    have hlt : k < tmp.length := hk
    rw [copyTmp, List.getElem?_eq_getElem hlt, List.take_succ_eq_append_getElem hlt,
      List.reverse_append]
    simp only [List.reverse_singleton, List.cons_append, CharArray.stores]
    cases s.write i tmp[k] with
    | error e => rfl
    | ok s' => exact ih (by omega) s' (i+1)

theorem length_digits_uint32 {ux : Nat} (h : ux < 2^32) : (Decimal.digits ux).length ≤ 10 :=
  Decimal.length_digits_le.mpr (by omega)

/-- The digits go into `tmp` backwards and come out of it in order. -/
theorem fill_copy (ux : Nat) (h : ux < 2^32) (s : CharArray n) (i : Nat) :
    (fillTmp 16 ux [] >>= fun tmp => copyTmp tmp tmp.length s i) =
      s.stores i ((Decimal.digits ux).reverse.map digitByte ++ [0]) := by
  have hlen := length_digits_uint32 h
  rw [fillTmp_eq 16 ux [] (by omega)]
  change copyTmp _ _ s i = _
  rw [copyTmp_eq _ _ (le_refl _), List.take_length, List.nil_append, List.map_reverse]

/-- The two's complement of a negative `int` is its absolute value, that of the least one too. -/
theorem uint32_neg {x : Int} (hx : IsInt x) (h : x < 0) :
    uint32 (0 - uint32 x) = x.natAbs := by
  rw [IsInt] at hx
  unfold uint32
  omega

theorem uint32_nonneg {x : Int} (hx : IsInt x) (h : ¬ x < 0) : uint32 x = x.natAbs := by
  rw [IsInt] at hx
  unfold uint32
  omega

theorem itoa10_eq {x : Int} (hx : IsInt x) (s : CharArray n) :
    itoa10 x s = s.stores 0 (numeral x ++ [0]) := by
  have hlt : x.natAbs < 2^32 := by
    rw [IsInt] at hx
    omega
  rw [itoa10, numeral]
  by_cases hneg : x < 0
  · rw [if_pos hneg, if_pos hneg, uint32_neg hx hneg]
    change (s.write 0 minus).bind _ = (s.write 0 minus).bind _
    cases s.write 0 minus with
    | error e => rfl
    | ok s' => exact fill_copy x.natAbs hlt s' 1
  · rw [if_neg hneg, if_neg hneg, uint32_nonneg hx hneg, List.nil_append]
    exact fill_copy x.natAbs hlt s 0

/-! What `atoi` makes of a numeral. -/

theorem toNat_digitByte {d : Nat} (h : d < 10) : (digitByte d).toNat = 48 + d := by
  rw [digitByte, UInt8.toNat_ofNat']
  omega

theorem digitByte_range {d : Nat} (h : d < 10) : 48 ≤ digitByte d ∧ digitByte d ≤ 57 := by
  rw [UInt8.le_iff_toNat_le, UInt8.le_iff_toNat_le, toNat_digitByte h]
  exact ⟨Nat.le_add_right 48 d, by change 48 + d ≤ 57; omega⟩

theorem numeral_ne_zero (x : Int) : ∀ c ∈ numeral x, (c != 0) = true := by
  intro c hc
  rw [numeral] at hc
  cases List.mem_append.mp hc with
  | inl hsign =>
    split at hsign
    · rw [List.mem_singleton.mp hsign]
      rfl
    · cases hsign
  | inr hdigit =>
    obtain ⟨d, hd, rfl⟩ := List.mem_map.mp hdigit
    have hlt := Decimal.digits_lt_ten (List.mem_reverse.mp hd)
    rw [bne_iff_ne]
    intro h0
    have := toNat_digitByte hlt
    rw [h0] at this
    change 0 = 48 + d at this
    omega

theorem str_eq {s : CharArray n} {x : Int} {post : List UInt8}
    (h : s.bytes = numeral x ++ (0 :: post)) : s.str = numeral x := by
  rw [CharArray.str, h, List.takeWhile_append_of_pos (numeral_ne_zero x)]
  simp

/-- The three roundings of a turn add up to one. -/
theorem int32_turn (a c : Int) :
    int32 (int32 (int32 (int32 a * 10) + c) - 48) = int32 (a * 10 + (c - 48)) := by
  unfold int32
  rw [Int.bmod_sub_bmod, Int.bmod_mul_bmod, Int.add_sub_assoc, Int.bmod_add_bmod]

/-- On digits the loop accumulates the value, modulo `2 ^ 32`. -/
theorem atoiLoop_digits (ds : List Nat) (hds : ∀ d ∈ ds, d < 10) (m : Nat) :
    atoiLoop (int32 m) (ds.map digitByte) =
      int32 ((ds.foldl (fun m d => m*10 + d) m : Nat) : Int) := by
  induction ds generalizing m with
  | nil => rfl
  | cons d ds ih =>
    have hd : d < 10 := hds d List.mem_cons_self
    have hacc : int32 (int32 (int32 (int32 m * 10) + (digitByte d).toNat) - 48) =
        int32 ((m*10 + d : Nat) : Int) := by
      rw [int32_turn, toNat_digitByte hd]
      push_cast
      congr 1
      omega
    rw [List.map_cons, atoiLoop, if_pos (digitByte_range hd), hacc, List.foldl_cons]
    exact ih (fun d' hd' => hds d' (List.mem_cons_of_mem d hd')) _

theorem int32_of_isInt {x : Int} (hx : IsInt x) : int32 x = x := by
  unfold int32
  rw [IsInt] at hx
  rw [Int.bmod_eq_of_le] <;> omega

theorem isInt_int32 (x : Int) : IsInt (int32 x) := by
  have hlt := Int.bmod_lt (x := x) (m := 2^32) (by decide)
  have hle := Int.le_bmod (x := x) (m := 2^32) (by decide)
  unfold int32
  constructor <;> omega

theorem atoi_numeral {x : Int} (hx : IsInt x) (h0 : 0 ≤ x) : atoi (numeral x) = x := by
  have hneg : ¬ x < 0 := by omega
  have hds : ∀ d ∈ (Decimal.digits x.natAbs).reverse, d < 10 := fun d hd =>
    Decimal.digits_lt_ten (List.mem_reverse.mp hd)
  have h := atoiLoop_digits _ hds 0
  rw [Decimal.foldl_digits, Int.natAbs_of_nonneg h0, int32_of_isInt hx] at h
  rw [atoi, numeral, if_neg hneg]
  exact h

/-- `atoi` knows no sign. -/
theorem atoi_numeral_neg {x : Int} (h : x < 0) : atoi (numeral x) = 0 := by
  rw [numeral, if_pos h]
  rfl

/-- What `itoa10` does to one number: it stays inside `tmp`, takes at most twelve bytes, fills an
array that has them with the numeral and a NUL, and `atoi` reads the number back. -/
structure Faithful (x : Int) : Prop where
  tmp : ∀ n (s : CharArray n), itoa10 x s ≠ .error .tmp
  short : (numeral x).length + 1 ≤ 12
  writes : ∀ n (s : CharArray n), (numeral x).length + 1 ≤ n → ∃ s', itoa10 x s = .ok s' ∧
    s'.bytes = numeral x ++ (0 :: s.bytes.drop ((numeral x).length + 1)) ∧ s'.str = numeral x
  canonical : ∃ ds : List Nat,
    numeral x = (if x < 0 then [minus] else []) ++ ds.map digitByte ∧ (∀ d ∈ ds, d < 10) ∧
      ds.foldl (fun m d => m*10 + d) 0 = x.natAbs ∧ ds ≠ [] ∧ (ds.head? = some 0 → ds = [0])
  atoi : 0 ≤ x → atoi (numeral x) = x

theorem itoa10_fits {x : Int} (hx : IsInt x) (s : CharArray n) (h : (numeral x).length + 1 ≤ n) :
    ∃ s', itoa10 x s = .ok s' ∧
      s'.bytes = numeral x ++ (0 :: s.bytes.drop ((numeral x).length + 1)) ∧
      s'.str = numeral x := by
  have hsplit : s.bytes = [] ++ (s.bytes.take ((numeral x).length + 1) ++
      s.bytes.drop ((numeral x).length + 1)) := (List.take_append_drop _ _).symm
  have hlen : (s.bytes.take ((numeral x).length + 1)).length = (numeral x ++ [0]).length := by
    rw [List.length_take, s.size, List.length_append, List.length_singleton]
    omega
  obtain ⟨s', hs', hb⟩ := stores_ok s [] (numeral x ++ [0]) _ _ hsplit hlen
  rw [List.nil_append, List.append_assoc, List.singleton_append] at hb
  exact ⟨s', (itoa10_eq hx s).trans hs', hb, str_eq hb⟩

theorem itoa10_overflows {x : Int} (hx : IsInt x) (s : CharArray n)
    (h : n < (numeral x).length + 1) : itoa10 x s = .error .dst := by
  rw [itoa10_eq hx]
  refine stores_error s 0 _ ?_ (Nat.zero_le n)
  rw [List.length_append, List.length_singleton]
  omega

theorem faithful {x : Int} (hx : IsInt x) : Faithful x where
  tmp n s := by
    by_cases h : (numeral x).length + 1 ≤ n
    · obtain ⟨s', hs', -⟩ := itoa10_fits hx s h
      rw [hs']
      exact nofun
    · rw [itoa10_overflows hx s (by omega)]
      exact nofun
  short := by
    have hlen : (Decimal.digits x.natAbs).length ≤ 10 := by
      rw [IsInt] at hx
      exact length_digits_uint32 (by omega)
    rw [length_numeral]
    split <;> omega
  writes n s h := itoa10_fits hx s h
  canonical := numeral_canonical x
  atoi h0 := atoi_numeral hx h0

/-- An eight byte array has room for seven digits. -/
theorem length_numeral_le {x : Int} (h0 : 0 ≤ x) : (numeral x).length + 1 ≤ 8 ↔ x < 10^7 := by
  have hneg : ¬ x < 0 := by omega
  rw [length_numeral, if_neg hneg, Nat.zero_add, Nat.add_le_add_iff_right,
    Decimal.length_digits_le (k := 6)]
  omega

theorem roundtrip_small {x : Int} (h0 : 0 ≤ x) (h7 : x < 10^7) (s : CharArray 8) :
    ∃ s', itoa10 x s = .ok s' ∧ atoi s'.str = x := by
  have hx : IsInt x := by
    rw [IsInt]
    omega
  obtain ⟨s', hs', -, hstr⟩ := itoa10_fits hx s ((length_numeral_le h0).mpr h7)
  exact ⟨s', hs', by rw [hstr, atoi_numeral hx h0]⟩

/-- A key that is negative or has more than seven digits is not what `process` decodes. -/
theorem roundtrip_iff {x : Int} (hx : IsInt x) (s : CharArray 8) :
    (∃ s', itoa10 x s = .ok s' ∧ atoi s'.str = x) ↔ 0 ≤ x ∧ x < 10^7 := by
  constructor
  · intro h
    obtain ⟨s', hs', hval⟩ := h
    by_cases hfit : (numeral x).length + 1 ≤ 8
    · obtain ⟨s'', hs'', -, hstr⟩ := itoa10_fits hx s hfit
      rw [hs'] at hs''
      cases hs''
      rw [hstr] at hval
      have h0 : 0 ≤ x := by
        by_contra hneg
        rw [atoi_numeral_neg (by omega)] at hval
        omega
      exact ⟨h0, (length_numeral_le h0).mp hfit⟩
    · rw [itoa10_overflows hx s (by omega)] at hs'
      cases hs'
  · intro h
    exact roundtrip_small h.1 h.2 s

/-- `passArgs` returns what it was given exactly if each of the four comes back. -/
theorem passArgs_iff (child : ChildArrays) (role key mailAb mailBa : Int) :
    passArgs child role key mailAb mailBa = .ok (role, key, mailAb, mailBa) ↔
      (∃ s, itoa10 role child.role = .ok s ∧ atoi s.str = role) ∧
      (∃ s, itoa10 key child.shm = .ok s ∧ atoi s.str = key) ∧
      (∃ s, itoa10 mailAb child.ab = .ok s ∧ atoi s.str = mailAb) ∧
      (∃ s, itoa10 mailBa child.ba = .ok s ∧ atoi s.str = mailBa) := by
  rw [passArgs]
  cases itoa10 role child.role with
  | error e => simp [bind, Except.bind]
  | ok r =>
    cases itoa10 key child.shm with
    | error e => simp [bind, Except.bind]
    | ok k =>
      cases itoa10 mailAb child.ab with
      | error e => simp [bind, Except.bind]
      | ok a =>
        cases itoa10 mailBa child.ba with
        | error e => simp [bind, Except.bind]
        | ok b => simp [bind, Except.bind, pure, Except.pure]

theorem mboxCreate_small {m : Mbox.State} {key : Int} (h : 0 ≤ (m.mboxCreate key).1) :
    (m.mboxCreate key).1 < 10^7 := by
  obtain ⟨i, hi⟩ := Int.eq_ofNat_of_zero_le h
  have hlt := (mboxCreate_id hi).1
  rw [hi]
  unfold maxMbox at hlt
  omega

/-- `itoa10` and `atoi` are faithful to every `int`, and `process` decodes the role, the key and
the mailbox ids of its master exactly if the key has at most seven digits and no sign. -/
theorem args_decoded_iff (pid : Int) (child : ChildArrays) (role : Fin 2) (m m' : Mbox.State)
    (hab : 0 ≤ (m.mboxCreate (abKey pid)).1) (hba : 0 ≤ (m'.mboxCreate (baKey pid)).1) :
    (∀ x, IsInt x → Faithful x) ∧
      (passArgs child role.val (base pid) (m.mboxCreate (abKey pid)).1
          (m'.mboxCreate (baKey pid)).1 =
        .ok (role.val, base pid, (m.mboxCreate (abKey pid)).1, (m'.mboxCreate (baKey pid)).1) ↔
      0 ≤ base pid ∧ base pid < 10^7) := by
  refine ⟨fun x hx => faithful hx, ?_⟩
  have hrole := roundtrip_small (x := role.val) (by omega) (by omega) child.role
  have hmailAb := roundtrip_small hab (mboxCreate_small hab) child.ab
  have hmailBa := roundtrip_small hba (mboxCreate_small hba) child.ba
  have hkey : IsInt (base pid) := isInt_int32 (10 + pid)
  rw [passArgs_iff, ← roundtrip_iff hkey child.shm]
  constructor
  · exact fun h => h.2.1
  · exact fun h => ⟨hrole, h, hmailAb, hmailBa⟩

def zeroArray : CharArray 8 := ⟨List.replicate 8 0, rfl⟩
def zeroArrays : ChildArrays := ⟨zeroArray, zeroArray, zeroArray, zeroArray⟩

def tableAfter (pid : Int) : Mbox.State := (Mbox.State.init.mboxCreate (abKey pid)).2

/-- The first master after boot: process 3, with the first two mailboxes. -/
theorem args_decoded_iff_pid_three : passArgs zeroArrays 1 13 0 1 = .ok (1, 13, 0, 1) := by
  have hab : (Mbox.State.init.mboxCreate (abKey 3)).1 = 0 := rfl
  have hba : ((tableAfter 3).mboxCreate (baKey 3)).1 = 1 := rfl
  have hkey : base 3 = 13 := rfl
  have h := (args_decoded_iff 3 zeroArrays 1 Mbox.State.init (tableAfter 3)
    (by rw [hab]) (by rw [hba]; decide)).2
  rw [hab, hba, hkey] at h
  exact h.mpr (by decide)

/-- The key of process 9999990 has eight digits, and its NUL does not fit into `shm[8]`. -/
theorem eight_digit_key_overflows :
    base 9999990 = 10000000 ∧ (Mbox.State.init.mboxCreate (abKey 9999990)).1 = 0 ∧
      ((tableAfter 9999990).mboxCreate (baKey 9999990)).1 = 1 ∧
      passArgs zeroArrays 0 (base 9999990) 0 1 = .error .dst ∧
      passArgs zeroArrays 0 (base 9999990) 0 1 ≠ .ok (0, base 9999990, 0, 1) := by
  have h : passArgs zeroArrays 0 (base 9999990) 0 1 = .error .dst := rfl
  refine ⟨rfl, rfl, rfl, h, ?_⟩
  rw [h]
  exact nofun

end Xv6Labs.Args
