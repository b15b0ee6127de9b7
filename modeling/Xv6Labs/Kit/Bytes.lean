import Mathlib.Logic.Function.Basic
import Mathlib.Data.Nat.Bits
import Mathlib.Tactic.Ring

/-! Byte buffers: little-endian 16- and 32-bit fields, and the bits of a bitmap. -/
namespace Kit.Bytes

abbrev Buf := Nat → UInt8

def get16 (b : Buf) (o : Nat) : Nat := (b o).toNat + 256 * (b (o+1)).toNat
def get32 (b : Buf) (o : Nat) : Nat := get16 b o + 65536 * get16 b (o+2)

def put16 (b : Buf) (o v : Nat) : Buf := fun i =>
  if i = o then UInt8.ofNat v else if i = o+1 then UInt8.ofNat (v/256) else b i
def put32 (b : Buf) (o v : Nat) : Buf := put16 (put16 b o v) (o+2) (v/65536)

/-- `memmove` of `n` bytes of `src` to the offset `o`. -/
def blit (b : Buf) (o n : Nat) (src : Buf) : Buf := fun i =>
  if o ≤ i ∧ i < o+n then src (i-o) else b i

variable {b : Buf} {o o' v n i j : Nat}

theorem get16_congr {c : Buf} (h0 : b o = c o) (h1 : b (o+1) = c (o+1)) :
    get16 b o = get16 c o := by
  unfold get16; rw [h0, h1]

theorem get32_congr {c : Buf} (h : ∀ k, o ≤ k → k < o+4 → b k = c k) :
    get32 b o = get32 c o := by
  unfold get32
  rw [get16_congr (h o (by omega) (by omega)) (h (o+1) (by omega) (by omega)),
    get16_congr (h (o+2) (by omega) (by omega)) (h (o+2+1) (by omega) (by omega))]

theorem put16_of_ne (h0 : i ≠ o) (h1 : i ≠ o+1) : put16 b o v i = b i := by
  simp [put16, h0, h1]

theorem put32_of_ne (h : i < o ∨ o+4 ≤ i) : put32 b o v i = b i := by
  unfold put32
  rw [put16_of_ne (by omega) (by omega), put16_of_ne (by omega) (by omega)]

theorem get16_put16_self : get16 (put16 b o v) o = v % 65536 := by
  have h1 : o+1 ≠ o := by omega
  simp only [get16, put16, h1, if_true, if_false, UInt8.toNat_ofNat']
  omega

theorem get16_put16_ne (h : o'+2 ≤ o ∨ o+2 ≤ o') : get16 (put16 b o v) o' = get16 b o' :=
  get16_congr (put16_of_ne (by omega) (by omega)) (put16_of_ne (by omega) (by omega))

theorem get16_put32_ne (h : o'+2 ≤ o ∨ o+4 ≤ o') : get16 (put32 b o v) o' = get16 b o' :=
  get16_congr (put32_of_ne (by omega)) (put32_of_ne (by omega))

theorem get32_put32_self (hv : v < 2^32) : get32 (put32 b o v) o = v := by
  have hlow : get16 (put32 b o v) o = v % 65536 :=
    (get16_put16_ne (by omega)).trans get16_put16_self
  have hhigh : get16 (put32 b o v) (o+2) = v/65536 % 65536 := get16_put16_self
  unfold get32
  rw [hlow, hhigh]
  omega

theorem get32_put32_ne (h : o'+4 ≤ o ∨ o+4 ≤ o') : get32 (put32 b o v) o' = get32 b o' :=
  get32_congr fun _ _ _ => put32_of_ne (by omega)

theorem blit_of_ne {src : Buf} (h : i < o ∨ o+n ≤ i) : blit b o n src i = b i := by
  unfold blit
  rw [if_neg (by omega)]

theorem blit_of_mem {src : Buf} (h : o ≤ i) (h' : i < o+n) : blit b o n src i = src (i-o) := by
  unfold blit
  rw [if_pos ⟨h, h'⟩]

theorem get16_blit_ne {src : Buf} (h : o'+2 ≤ o ∨ o+n ≤ o') :
    get16 (blit b o n src) o' = get16 b o' :=
  get16_congr (blit_of_ne (by omega)) (blit_of_ne (by omega))

theorem get32_blit_ne {src : Buf} (h : o'+4 ≤ o ∨ o+n ≤ o') :
    get32 (blit b o n src) o' = get32 b o' :=
  get32_congr fun _ _ _ => blit_of_ne (by omega)

theorem get16_blit_self {src : Buf} (h : i+2 ≤ n) :
    get16 (blit b o n src) (o+i) = get16 src i := by
  have h0 : blit b o n src (o+i) = src i := by
    rw [blit_of_mem (by omega) (by omega), Nat.add_sub_cancel_left]
  have h1 : blit b o n src (o+i+1) = src (i+1) := by
    rw [blit_of_mem (by omega) (by omega), Nat.add_assoc, Nat.add_sub_cancel_left]
  unfold get16
  rw [h0, h1]

theorem get32_blit_self {src : Buf} (h : i+4 ≤ n) :
    get32 (blit b o n src) (o+i) = get32 src i := by
  unfold get32
  rw [get16_blit_self (by omega), Nat.add_assoc, get16_blit_self (by omega)]

/-- The bytes of an array of 32-bit words. -/
def ofWords (f : Nat → Nat) : Buf := fun k => UInt8.ofNat (f (k/4) / 256^(k%4))

theorem get32_ofWords {f : Nat → Nat} (h : f i < 2^32) : get32 (ofWords f) (4*i) = f i := by
  have hdiv : ∀ k < 4, (4*i + k)/4 = i := by omega
  have hmod : ∀ k < 4, (4*i + k)%4 = k := by omega
  have hbyte : ∀ k < 4, (ofWords f (4*i + k)).toNat = f i / 256^k % 256 := by
    intro k hk
    simp only [ofWords, hdiv k hk, hmod k hk, UInt8.toNat_ofNat']
  have h0 := hbyte 0 (by decide)
  have h1 := hbyte 1 (by decide)
  have h2 := hbyte 2 (by decide)
  have h3 := hbyte 3 (by decide)
  simp only [Nat.add_zero, pow_zero, Nat.div_one, pow_one] at h0 h1
  unfold get32 get16
  rw [Nat.add_assoc (4*i) 2 1, h0, h1, h2, h3]
  omega

/-! Bits, eight to a byte, the lowest first. -/

def mask (i : Nat) : UInt8 := 1 <<< UInt8.ofNat (i % 8)

/-- `data[i/8] & (1 << (i % 8))` is not zero. -/
def testBit (b : Buf) (i : Nat) : Bool := (b (i/8) &&& mask i) != 0

def setBit (b : Buf) (i : Nat) : Buf :=
  Function.update b (i/8) (b (i/8) ||| mask i)

def clearBit (b : Buf) (i : Nat) : Buf :=
  Function.update b (i/8) (b (i/8) &&& ~~~ mask i)

theorem mask_getLsbD (i k : Nat) (hk : k < 8) :
    (mask i).toBitVec.getLsbD k = decide (k = i % 8) := by
  have hi : i % 8 < 8 := Nat.mod_lt _ (by decide)
  have key : ∀ r < 8, ∀ k < 8,
      ((1 : UInt8) <<< UInt8.ofNat r).toBitVec.getLsbD k = decide (k = r) := by decide
  exact key (i % 8) hi k hk

theorem and_mask_ne_zero (x : UInt8) (i : Nat) :
    ((x &&& mask i) != 0) = x.toBitVec.getLsbD (i % 8) := by
  have hi : i % 8 < 8 := Nat.mod_lt _ (by decide)
  rw [Bool.eq_iff_iff, bne_iff_ne, ne_eq, ← UInt8.toBitVec_inj, UInt8.toBitVec_and]
  constructor
  · intro h
    by_contra hx
    apply h
    apply BitVec.eq_of_getLsbD_eq
    intro k hk
    rw [BitVec.getLsbD_and, mask_getLsbD i k hk]
    by_cases hki : k = i % 8
    · simp_all
    · simp [hki]
  · intro hx h
    have := congrArg (fun y => y.getLsbD (i % 8)) h
    simp [BitVec.getLsbD_and, mask_getLsbD i _ hi, hx] at this

theorem testBit_eq : testBit b i = (b (i/8)).toBitVec.getLsbD (i % 8) := and_mask_ne_zero _ _

/-- The bitmap of `p`. -/
def ofBits (p : Nat → Bool) : Buf := fun k =>
  .ofBitVec (BitVec.ofBoolListLE ((List.range 8).map fun r => p (8*k + r)))

theorem testBit_ofBits {p : Nat → Bool} : testBit (ofBits p) i = p i := by
  have hlt : i % 8 < 8 := Nat.mod_lt _ (by decide)
  have hbit : (ofBits p (i/8)).toBitVec.getLsbD (i % 8) = p (8*(i/8) + i % 8) := by
    refine (BitVec.getLsbD_ofBoolListLE (i := i % 8)).trans ?_
    simp [hlt]
  rw [testBit_eq, hbit, Nat.div_add_mod]

theorem testBit_setBit : testBit (setBit b i) j = (decide (j = i) || testBit b j) := by
  have hj : j % 8 < 8 := Nat.mod_lt _ (by decide)
  rw [testBit_eq, testBit_eq]
  unfold setBit
  by_cases hq : j/8 = i/8
  · rw [hq, Function.update_self, UInt8.toBitVec_or, BitVec.getLsbD_or, mask_getLsbD i _ hj,
      Bool.or_comm]
    congr 1
    exact decide_eq_decide.mpr (by omega)
  · rw [Function.update_of_ne hq]
    have hne : j ≠ i := by intro h; exact hq (by rw [h])
    simp [hne]

theorem testBit_clearBit : testBit (clearBit b i) j = (!decide (j = i) && testBit b j) := by
  have hj : j % 8 < 8 := Nat.mod_lt _ (by decide)
  rw [testBit_eq, testBit_eq]
  unfold clearBit
  by_cases hq : j/8 = i/8
  · rw [hq, Function.update_self, UInt8.toBitVec_and, BitVec.getLsbD_and, UInt8.toBitVec_not,
      BitVec.getLsbD_not, mask_getLsbD i _ hj, Bool.and_comm]
    congr 1
    have : (j % 8 = i % 8) ↔ j = i := by omega
    simp [hj, this]
  · rw [Function.update_of_ne hq]
    have hne : j ≠ i := by intro h; exact hq (by rw [h])
    simp [hne]

/-- A buffer is its bits. -/
theorem ext_testBit {c : Buf} (h : ∀ i, testBit b i = testBit c i) : b = c := by
  funext k
  apply UInt8.toBitVec_inj.mp
  apply BitVec.eq_of_getLsbD_eq
  intro r hr
  have hk := h (8*k + r)
  have hdiv : (8*k + r)/8 = k := by omega
  have hmod : (8*k + r)%8 = r := by omega
  rw [testBit_eq, testBit_eq, hdiv, hmod] at hk
  exact hk

theorem clearBit_setBit (h : testBit b i = false) : clearBit (setBit b i) i = b := by
  apply ext_testBit
  intro j
  rw [testBit_clearBit, testBit_setBit]
  by_cases hj : j = i
  · rw [hj, h]
    simp
  · simp [hj]

end Kit.Bytes
