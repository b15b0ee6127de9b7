import Xv6Labs.Sys.Held

/-! Directories as lists of slots, and paths as walks through them: what `dirlookup`, `dirlink`
and `namex` find, read and write. -/
namespace Xv6Labs.Sys
open Kit Fs

/-- Entry `k` of a directory; past its end the entries are empty. -/
def slot (data : List UInt8) (k : Nat) : Dirent :=
  .ofBytes ((data.drop (16*k)).take 16)

/-- What `dirlookup` accepts. -/
def matchesName (name : Str) (de : Dirent) : Bool := de.inum ≠ 0 ∧ namecmp name de.name = 0

/-- The first slot with the name. -/
def find (data : List UInt8) (name : Str) : Option Nat :=
  (List.range (data.length/16)).find? fun k => matchesName name (slot data k)

/-- The inode that the elements of a path lead to, from the inode `ip`. -/
def walk (nd : Nat → Node) : Nat → List Str → Option Nat
  | ip, [] => some ip
  | ip, name :: rest =>
    if (nd ip).type ≠ tDir then none
    else
      match find (nd ip).data name with
      | none => none
      | some k => walk nd (slot (nd ip).data k).inum rest

def State.start (s : State) (path : Str) : Nat :=
  if path.head? = some slash then rootino else s.myproc.cwd

/-- The inode that a path names. -/
def State.names (s : State) (path : Str) : Option Nat := walk s.node (s.start path) (elements path)

/-- The characters that `strncmp` compares. -/
def key : Nat → List UInt8 → List UInt8
  | 0, _ => []
  | n+1, p => if p.headD 0 = 0 then [] else p.headD 0 :: key n p.tail

theorem strncmp_eq_zero (n : Nat) (p q : List UInt8) : strncmp p q n = 0 ↔ key n p = key n q := by
  induction n generalizing p q with
  | zero => simp [strncmp, key]
  | succ n ih =>
    unfold strncmp key
    by_cases hp : p.headD 0 = 0
    · rw [if_neg (fun h => h.1 hp), if_pos hp, hp]
      by_cases hq : q.headD 0 = 0
      · rw [if_pos hq, hq]
        decide
      · rw [if_neg hq]
        have : (q.headD 0).toNat ≠ 0 := fun h => hq (UInt8.toNat_inj.mp h)
        simp only [List.nil_eq, reduceCtorEq, iff_false, UInt8.toNat_zero]
        omega
    · rw [if_neg hp]
      by_cases he : p.headD 0 = q.headD 0
      · rw [if_pos ⟨hp, he⟩, ih, if_neg (he ▸ hp), he, List.cons_inj_right]
      · rw [if_neg (fun h => he h.2)]
        have hne : (p.headD 0).toNat ≠ (q.headD 0).toNat := fun h => he (UInt8.toNat_inj.mp h)
        constructor
        · intro h
          omega
        · intro h
          split at h
          · cases h
          · exact absurd (List.cons.inj h).1 he

/-- Two names that match the same entry match each other. -/
theorem namecmp_trans {a b c : List UInt8} (ha : namecmp a c = 0) (hb : namecmp b c = 0) :
    namecmp a b = 0 := by
  unfold namecmp at *
  rw [strncmp_eq_zero] at *
  rw [ha, hb]

theorem key_pad (n m : Nat) (p : List UInt8) : key n ((p ++ List.replicate m 0).take n) = key n p := by
  induction n generalizing p with
  | zero => rfl
  | succ n ih =>
    cases p with
    | nil =>
      have h0 : (([] ++ List.replicate m 0 : List UInt8).take (n+1)).headD 0 = 0 := by
        cases m with
        | zero => rfl
        | succ m => rfl
      rw [key, key, if_pos h0]
      rfl
    | cons c p =>
      rw [List.cons_append, List.take_succ_cons, key, key, List.headD_cons, List.tail_cons, ih]
      rfl

theorem namecmp_strncpy (name : Str) : namecmp name (strncpy name) = 0 := by
  rw [namecmp, strncmp_eq_zero, strncpy, key_pad]

section Slots
variable {data : List UInt8} {off i j k : Nat} {bs : List UInt8}

theorem getElem?_overwrite (h : off ≤ data.length) (i : Nat) :
    (overwrite data off bs)[i]? =
      if off ≤ i ∧ i < off + bs.length then bs[i-off]? else data[i]? := by
  have hmin : min off data.length = off := Nat.min_eq_left h
  unfold overwrite
  by_cases h1 : i < off
  · rw [List.append_assoc, List.getElem?_append_left (by simp [hmin, h1]), if_neg (by omega),
      List.getElem?_take, if_pos h1]
  · by_cases h2 : i < off + bs.length
    · rw [List.getElem?_append_left (by simp only [List.length_append, List.length_take]; omega),
        List.getElem?_append_right (by simp only [List.length_take]; omega), if_pos (by omega),
        List.length_take, hmin]
    · rw [List.getElem?_append_right (by simp only [List.length_append, List.length_take]; omega),
        if_neg (by omega), List.getElem?_drop]
      simp only [List.length_append, List.length_take, hmin]
      congr 1
      omega

theorem length_overwrite (h : off ≤ data.length) :
    (overwrite data off bs).length = max data.length (off + bs.length) := by
  simp only [overwrite, List.length_append, List.length_take, List.length_drop]
  omega

theorem overwrite_nil : overwrite data off [] = data := by
  simp [overwrite]

theorem write_nil (x : Node) : x.write off [] = x := by
  rw [Node.write, overwrite_nil]

theorem slot_congr {data' : List UInt8}
    (h : ∀ i, 16*k ≤ i → i < 16*k + 16 → data[i]? = data'[i]?) :
    slot data k = slot data' k := by
  unfold slot
  congr 1
  apply List.ext_getElem?
  intro i
  simp only [List.getElem?_take, List.getElem?_drop]
  split
  · exact h _ (by omega) (by omega)
  · rfl

theorem slot_overwrite_ne (h : 16*k ≤ data.length) (hbs : bs.length = 16)
    (hj : j ≠ k) : slot (overwrite data (16*k) bs) j = slot data j := by
  apply slot_congr
  intro i h1 h2
  rw [getElem?_overwrite h, if_neg]
  omega

theorem slot_overwrite_self (h : 16*k ≤ data.length) (hbs : bs.length = 16) :
    slot (overwrite data (16*k) bs) k = .ofBytes bs := by
  unfold slot
  congr 1
  apply List.ext_getElem?
  intro i
  rw [List.getElem?_take]
  split
  · rw [List.getElem?_drop, getElem?_overwrite h, if_pos (by omega)]
    congr 1
    omega
  · rw [List.getElem?_eq_none (by omega)]

theorem slot_past (h : data.length ≤ 16*k) : (slot data k).inum = 0 := by
  unfold slot
  rw [List.drop_eq_nil_of_le h]
  rfl

theorem strncpy_length (name : Str) : (strncpy name).length = dirsiz := by
  simp [strncpy]

theorem bytes_length (inum : Nat) (name : Str) :
    (Dirent.bytes inum name).length = 16 := by
  simp [Dirent.bytes, strncpy_length]

theorem ofBytes_bytes (inum : Nat) (name : Str) (h : inum < 65536) :
    Dirent.ofBytes (Dirent.bytes inum name) = ⟨inum, strncpy name⟩ := by
  unfold Dirent.ofBytes Dirent.bytes
  simp only [List.getD_cons_zero, List.getD_cons_succ, List.drop_succ_cons, List.drop_zero,
    UInt8.toNat_ofNat']
  congr 1
  omega

end Slots

/-! The loop over the entries of a directory. -/

/-- The loop has passed the slots from `k0` to `k`. -/
structure Scanned (data : List UInt8) (p : Dirent → Bool) (k0 k : Nat) : Prop where
  le : k0 ≤ k
  pass : ∀ j, k0 ≤ j → j < k → p (slot data j) = false
  full : k0 < k → 16*k ≤ data.length

/-- A read of as many bytes as were asked for is a slice of the file. -/
theorem readi_full {dp off n : Nat} {s s' : State} {b : List UInt8} (hn : 0 < n)
    (hr : readi dp off n s = .ok (b, s')) (hb : b.length = n) :
    off + n ≤ (s.node dp).data.length ∧ b = ((s.node dp).data.drop off).take n := by
  unfold readi at hr
  cases hr
  split at hb
  · rename_i hc
    rw [if_pos hc]
    rw [List.length_take, List.length_drop] at hb
    exact ⟨by omega, rfl⟩
  · rw [List.length_nil] at hb
    omega

theorem scan_ok {dp : Nat} {msg : String} {p : Dirent → Bool} {s s' : State}
    {r : Nat × Option Dirent} (fuel k0 : Nat)
    (hfuel : (s.node dp).data.length < 16*k0 + 16*fuel)
    (hr : scan dp msg p fuel (16*k0) s = .ok (r, s')) :
    s' = s ∧ ∃ k, r.1 = 16*k ∧ Scanned (s.node dp).data p k0 k ∧
      (r.2 = none → (s.node dp).data.length ≤ 16*k) ∧
      (∀ de, r.2 = some de → de = slot (s.node dp).data k ∧ p de = true ∧
        16*k + 16 ≤ (s.node dp).data.length) := by
  induction fuel generalizing k0 with
  | zero =>
    obtain ⟨rfl, rfl⟩ := pure_ok hr
    exact ⟨rfl, k0, rfl, ⟨le_rfl, by omega, by omega⟩, fun _ => by omega, fun _ h => by cases h⟩
  | succ fuel ih =>
    unfold scan at hr
    obtain ⟨nd, s1, h1, hr⟩ := bind_ok hr
    cases h1
    split at hr
    · rename_i hlt
      obtain ⟨b, s1, h1, hr⟩ := bind_ok hr
      have hs1 : s1 = s := by
        unfold readi at h1
        cases h1
        rfl
      rw [hs1] at hr
      split at hr
      · cases hr
      · rename_i hlen
        obtain ⟨hfit, hb⟩ := readi_full (by decide) h1 (not_not.mp hlen)
        split at hr
        · rename_i hp
          obtain ⟨rfl, rfl⟩ := pure_ok hr
          refine ⟨rfl, k0, rfl, ⟨le_rfl, by omega, by omega⟩, ?_, ?_⟩
          · intro h
            cases h
          intro de hde
          cases hde
          exact ⟨congrArg Dirent.ofBytes hb, hp, hfit⟩
        · rename_i hp
          rw [show 16*k0 + direntSize = 16*(k0+1) by simp only [direntSize]; omega] at hr
          obtain ⟨hs, k, hk, hsc, hend, hfound⟩ := ih (k0+1) (by omega) hr
          refine ⟨hs, k, hk, ⟨Nat.le_of_succ_le hsc.le, ?_, ?_⟩, hend, hfound⟩
          · intro j hj hjk
            by_cases he : j = k0
            · rw [he, slot, ← hb]
              exact Bool.eq_false_iff.mpr hp
            · exact hsc.pass j (by omega) hjk
          · intro _
            by_cases he : k = k0+1
            · rw [he]
              omega
            · exact hsc.full (by have := hsc.le; omega)
    · obtain ⟨rfl, rfl⟩ := pure_ok hr
      exact ⟨rfl, k0, rfl, ⟨le_rfl, by omega, by omega⟩, fun _ => by omega, fun _ h => by cases h⟩

section Calls
variable {s0 s s' : State} {nd : Nat → Node} {hs ls : List Nat} {n i dp : Nat} {name : Str}

theorem At.dirlookup (h : At s0 nd hs ls n s) {x : Option (Nat × Nat)}
    (hr : dirlookup dp name s = .ok (x, s')) :
    (nd dp).type = tDir ∧
    ((x = none ∧ find (nd dp).data name = none ∧ 16 ∣ (nd dp).data.length ∧
      At s0 nd hs ls n s') ∨
    ∃ k, x = some ((slot (nd dp).data k).inum, 16*k) ∧ find (nd dp).data name = some k ∧
      At s0 nd ((slot (nd dp).data k).inum :: hs) ls n s') := by
  unfold Sys.dirlookup at hr
  rw [h.inode] at hr
  split at hr
  · cases hr
  · rename_i ht
    refine ⟨not_not.mp ht, ?_⟩
    obtain ⟨r, s1, h1, hr⟩ := bind_ok hr
    have hdata := congrFun h.node dp
    obtain ⟨hs1, k, hk, hsc, hend, hfound⟩ := scan_ok _ 0 (by rw [hdata]; omega) h1
    rw [hs1] at hr
    rw [hdata] at hsc hend hfound
    cases hde : r.2 with
    | none =>
      simp only [hde] at hr
      obtain ⟨rfl, rfl⟩ := pure_ok hr
      have hlen : (nd dp).data.length = 16*k := by
        have h0 := hend hde
        by_cases hk0 : k = 0
        · omega
        · have := hsc.full (by omega)
          omega
      refine .inl ⟨rfl, ?_, ⟨k, hlen⟩, h⟩
      unfold find
      rw [List.find?_range_eq_none]
      intro j hj
      have := hsc.pass j (by omega) (by omega)
      exact Bool.not_eq_true' _ |>.mpr this
    | some de =>
      simp only [hde] at hr
      obtain ⟨rfl, hp, hfit⟩ := hfound de hde
      obtain ⟨_, s2, h2, hr⟩ := bind_ok hr
      obtain ⟨rfl, rfl⟩ := pure_ok hr
      refine .inr ⟨k, by rw [hk], ?_, h.iget h2⟩
      unfold find
      rw [List.find?_range_eq_some]
      refine ⟨hp, List.mem_range.mpr (by omega), ?_⟩
      intro j hj
      exact Bool.not_eq_true' _ |>.mpr (hsc.pass j (by omega) hj)

/-- A write that stays within a block stores all of it or nothing. -/
theorem fits_block {size off m room : Nat} (hblk : off%bsize + m ≤ bsize) :
    min m (fits size room off) = m ∨ min m (fits size room off) = 0 := by
  simp only [fits, blocks, bsize] at *
  omega

theorem At.writei (h : At s0 nd hs ls n s) (ht : (nd i).type ≠ 0) {src : List UInt8} {off : Nat}
    {r : Int} (hr : writei i src off s = .ok (r, s')) :
    (r = -1 ∧ ((nd i).data.length < off ∨ maxfile*bsize < off + src.length) ∧
      At s0 nd hs ls n s') ∨
    ∃ tot : Nat, r = tot ∧ tot = min src.length (fits (nd i).data.length (s0.room n) off) ∧
      off ≤ (nd i).data.length ∧ off + src.length ≤ maxfile*bsize ∧
      At s0 (Function.update nd i ((nd i).write off (src.take tot))) hs ls (n+1) s' := by
  unfold Sys.writei at hr
  simp only [h.node] at hr
  split at hr
  · rename_i hc
    cases hr
    refine .inl ⟨rfl, ?_, h⟩
    simp only [maxfile, bsize]
    omega
  · rename_i hc
    split at hr
    · rename_i hmax
      cases hr
      exact .inl ⟨rfl, .inr hmax, h⟩
    · rename_i hmax
      rw [h.room 0, Nat.zero_add] at hr
      cases hr
      refine .inr ⟨_, rfl, rfl, by omega, by omega, ?_⟩
      have hset := h.setNode (i := i) ((nd i).write off
        (src.take (min src.length (fits (nd i).data.length (s0.room n) off)))) (.inl ht)
      exact { hset with room := fun k => by rw [h.room, Nat.add_right_comm]; rfl }

/-- An entry of `data` that `dirlink` may fill. -/
structure Vacant (data : List UInt8) (k : Nat) : Prop where
  aligned : 16 ∣ data.length
  le : 16*k ≤ data.length
  empty : (slot data k).inum = 0
  before : ∀ j < k, (slot data j).inum ≠ 0
  fits : 16*k + 16 ≤ maxfile*bsize

/-- There is one entry that `dirlink` may fill, the first empty one. -/
theorem Vacant.eq_of_first {data : List UInt8} {j k : Nat} (h : Vacant data j)
    (hempty : (slot data k).inum = 0) (hbefore : ∀ i < k, (slot data i).inum ≠ 0) : j = k := by
  by_contra hne
  cases Nat.lt_or_gt_of_ne hne with
  | inl hlt => exact hbefore j hlt h.empty
  | inr hgt => exact h.before k hgt hempty

/-- A new entry is found under its name. -/
theorem find_vacant {data : List UInt8} {k ip : Nat} (hv : Vacant data k) (h0 : 0 < ip)
    (hi : ip < 65536) (hnone : find data name = none) :
    find (overwrite data (16*k) (Dirent.bytes ip name)) name = some k := by
  have hlen := @length_overwrite _ _ (Dirent.bytes ip name) hv.le
  have hself := slot_overwrite_self hv.le (bytes_length ip name)
  rw [ofBytes_bytes ip name hi] at hself
  rw [bytes_length] at hlen
  unfold find at hnone ⊢
  rw [List.find?_range_eq_none] at hnone
  rw [List.find?_range_eq_some]
  have hdvd := hv.aligned
  refine ⟨?_, List.mem_range.mpr (by rw [hlen]; omega), ?_⟩
  · rw [hself]
    simp only [matchesName, decide_eq_true_eq]
    exact ⟨by omega, namecmp_strncpy name⟩
  · intro j hj
    rw [slot_overwrite_ne hv.le (bytes_length ip name) (by omega)]
    have := hv.le
    exact hnone j (by omega)

/-- It hides no other. -/
theorem find_vacant_ne {data : List UInt8} {k ip j : Nat} {e : Str} (hv : Vacant data k)
    (hi : ip < 65536) (hnone : find data name = none) (hj : find data e = some j) :
    find (overwrite data (16*k) (Dirent.bytes ip name)) e = some j ∧
      slot (overwrite data (16*k) (Dirent.bytes ip name)) j = slot data j := by
  have hlen := @length_overwrite _ _ (Dirent.bytes ip name) hv.le
  have hself := slot_overwrite_self hv.le (bytes_length ip name)
  rw [ofBytes_bytes ip name hi] at hself
  have hne : ∀ i, i ≠ k → slot (overwrite data (16*k) (Dirent.bytes ip name)) i = slot data i :=
    fun i => slot_overwrite_ne hv.le (bytes_length ip name)
  unfold find at hnone hj ⊢
  rw [List.find?_range_eq_none] at hnone
  rw [List.find?_range_eq_some] at hj ⊢
  obtain ⟨hp, hmem, hbefore⟩ := hj
  have hlt := List.mem_range.mp hmem
  have hjk : j ≠ k := by
    intro he
    rw [he] at hp
    simp [matchesName, hv.empty] at hp
  rw [hne j hjk]
  refine ⟨⟨hp, List.mem_range.mpr (by rw [hlen]; omega), ?_⟩, rfl⟩
  intro i hij
  by_cases hik : i = k
  · -- The new name is not the one that is looked up: that one has an entry.
    subst hik
    rw [hself]
    have hmiss := hnone j hlt
    simp only [matchesName, Bool.not_eq_true', decide_eq_false_iff_not, decide_eq_true_eq] at *
    intro hnew
    apply hmiss
    refine ⟨hp.1, ?_⟩
    have h1 := namecmp_strncpy name
    unfold namecmp at *
    rw [strncmp_eq_zero] at *
    rw [h1, ← hnew.2, hp.2]
  · rw [hne i hik]
    exact hbefore i hij

/-- `dirlink` adds the entry or leaves the inodes alone. -/
theorem At.dirlink (h : At s0 nd hs ls n s) (hq : Quiet s0.ref nd) (hls : ∀ i ∈ ls, i ∈ hs)
    {inum : Nat} {r : Int} (hr : dirlink dp name inum s = .ok (r, s')) :
    (nd dp).type = tDir ∧
    ((r = -1 ∧ (∀ k, find (nd dp).data name = none → Vacant (nd dp).data k →
        fits (nd dp).data.length (s0.room n) (16*k) < 16) ∧ ∃ n', At s0 nd hs ls n' s') ∨
    (r = 0 ∧ find (nd dp).data name = none ∧ ∃ k, Vacant (nd dp).data k ∧
      16 ≤ fits (nd dp).data.length (s0.room n) (16*k) ∧
      At s0 (Function.update nd dp ((nd dp).write (16*k) (Dirent.bytes inum name))) hs ls (n+1)
        s')) := by
  unfold Sys.dirlink at hr
  obtain ⟨x, s1, h1, hr⟩ := bind_ok hr
  obtain ⟨ht, hx⟩ := h.dirlookup h1
  refine ⟨ht, ?_⟩
  cases hx with
  | inr hfound =>
    obtain ⟨k, rfl, hfind, hat⟩ := hfound
    obtain ⟨_, s2, h2, hr⟩ := bind_ok hr
    obtain ⟨rfl, rfl⟩ := pure_ok hr
    refine .inl ⟨rfl, ?_, n, hat.iput (fun hm => hls _ hm) ?_ h2⟩
    · intro j hnone
      rw [hfind] at hnone
      cases hnone
    · intro htype
      exact (hq _ htype).imp_right fun hpos => Nat.add_pos_left hpos _
  | inl hnone =>
    obtain ⟨rfl, hfind, halign, h⟩ := hnone
    dsimp only at hr
    rw [h.inode] at hr
    obtain ⟨q, s2, h2, hr⟩ := bind_ok hr
    have hdata := congrFun h.node dp
    obtain ⟨hs2, k, hk, hsc, hend, hfound⟩ := scan_ok _ 0 (by rw [hdata]; omega) h2
    rw [hs2] at hr
    rw [hdata] at hsc hend hfound
    obtain ⟨m, s3, h3, hr⟩ := bind_ok hr
    rw [hk] at h3
    have hempty : (slot (nd dp).data k).inum = 0 := by
      cases hde : q.2 with
      | none => exact slot_past (hend hde)
      | some de =>
        obtain ⟨rfl, hp, -⟩ := hfound de hde
        simpa using hp
    have hle : 16*k ≤ (nd dp).data.length := by
      by_cases hk0 : k = 0
      · omega
      · exact hsc.full (by omega)
    have hbefore : ∀ j < k, (slot (nd dp).data j).inum ≠ 0 := by
      intro j hj
      have := hsc.pass j (by omega) hj
      simpa using this
    cases h.writei (by rw [ht]; decide) h3 with
    | inl hrej =>
      obtain ⟨rfl, hbig, hat⟩ := hrej
      rw [if_pos (by decide)] at hr
      obtain ⟨rfl, rfl⟩ := pure_ok hr
      refine .inl ⟨rfl, ?_, n, hat⟩
      intro j _ hv
      have hj := hv.eq_of_first hempty hbefore
      subst hj
      have := hv.fits
      rw [bytes_length] at hbig
      omega
    | inr hwrote =>
      obtain ⟨tot, rfl, htot, -, hmax, hat⟩ := hwrote
      rw [bytes_length] at htot hmax
      have hblk : (16*k)%bsize + 16 ≤ bsize := by
        simp only [bsize]
        omega
      cases @fits_block (nd dp).data.length _ _ (s0.room n) hblk with
      | inl hall =>
        rw [hall] at htot
        rw [htot, if_neg (by decide)] at hr
        obtain ⟨rfl, rfl⟩ := pure_ok hr
        rw [htot, List.take_of_length_le (by rw [bytes_length])] at hat
        exact .inr ⟨rfl, hfind, k, ⟨halign, hle, hempty, hbefore, hmax⟩, by omega, hat⟩
      | inr hnone =>
        rw [hnone] at htot
        rw [htot, if_pos (by decide)] at hr
        obtain ⟨rfl, rfl⟩ := pure_ok hr
        rw [htot, List.take_zero, write_nil, Function.update_eq_self] at hat
        refine .inl ⟨rfl, ?_, n+1, hat⟩
        intro j _ hv
        have hj := hv.eq_of_first hempty hbefore
        subst hj
        omega

theorem Quiet.held (hq : Quiet s0.ref nd) (ht : (nd i).type ≠ 0) :
    (nd i).nlink ≠ 0 ∨ 0 < s0.ref i + hs.count i :=
  (hq i ht).imp_right fun hpos => Nat.add_pos_left hpos _

/-- `namex` without a parent follows `walk`, and trades the reference it started with for one to
the inode it finds. -/
theorem At.namexLoop {ip : Nat} {es : List Str} (h : At s0 nd (ip :: hs) [] n s)
    (hq : Quiet s0.ref nd) {x : Option (Nat × Str)}
    (hr : namexLoop false ip es s = .ok (x, s')) :
    x.map Prod.fst = walk nd ip es ∧ At s0 nd ((walk nd ip es).toList ++ hs) [] n s' := by
  induction es generalizing ip s with
  | nil =>
    obtain ⟨rfl, rfl⟩ := pure_ok hr
    exact ⟨rfl, h⟩
  | cons name rest ih =>
    unfold Sys.namexLoop at hr
    obtain ⟨_, s1, h1, hr⟩ := bind_ok hr
    obtain ⟨h, -, ht⟩ := h.ilock h1
    rw [h.inode] at hr
    unfold walk
    split at hr
    · rename_i hdir
      obtain ⟨_, s2, h2, hr⟩ := bind_ok hr
      obtain ⟨rfl, rfl⟩ := pure_ok hr
      rw [if_pos hdir]
      exact ⟨rfl, h.iunlockput (List.not_mem_nil) (hq.held ht) h2⟩
    · rename_i hdir
      rw [if_neg (by simp)] at hr
      rw [if_neg hdir]
      obtain ⟨y, s2, h2, hr⟩ := bind_ok hr
      obtain ⟨-, hy⟩ := h.dirlookup h2
      cases hy with
      | inl hnone =>
        obtain ⟨rfl, hfind, -, h⟩ := hnone
        obtain ⟨_, s3, h3, hr⟩ := bind_ok hr
        obtain ⟨rfl, rfl⟩ := pure_ok hr
        rw [hfind]
        exact ⟨rfl, h.iunlockput (List.not_mem_nil) (hq.held ht) h3⟩
      | inr hsome =>
        obtain ⟨k, rfl, hfind, h⟩ := hsome
        obtain ⟨_, s3, h3, hr⟩ := bind_ok hr
        rw [hfind]
        exact ih ((h.perm (List.Perm.swap ..)).iunlockput (List.not_mem_nil) (hq.held ht) h3) hr

/-- The elements `es` have no parent directory: what comes before the last one leads nowhere, or
not to a directory. -/
def NoParent (nd : Nat → Node) (ip : Nat) (es : List Str) : Prop :=
  ∀ es' name dp, es = es' ++ [name] → walk nd ip es' = some dp → (nd dp).type ≠ tDir

/-- `namex` with a parent follows `walk` up to the last element. -/
theorem At.namexParent {ip : Nat} {es : List Str} (h : At s0 nd (ip :: hs) [] n s)
    (hq : Quiet s0.ref nd) {x : Option (Nat × Str)}
    (hr : Sys.namexLoop true ip es s = .ok (x, s')) :
    (x = none ∧ NoParent nd ip es ∧ At s0 nd hs [] n s') ∨ ∃ dp name es', x = some (dp, name) ∧
      At s0 nd (dp :: hs) [] n s' ∧ (nd dp).type = tDir ∧ es = es' ++ [name] ∧
      walk nd ip es' = some dp := by
  induction es generalizing ip s with
  | nil =>
    obtain ⟨_, s1, h1, hr⟩ := bind_ok hr
    obtain ⟨rfl, rfl⟩ := pure_ok hr
    refine .inl ⟨rfl, ?_,
      h.iput (fun hm => absurd hm List.not_mem_nil) (fun ht => hq.held ht) h1⟩
    intro es' name dp hes
    simp at hes
  | cons name rest ih =>
    unfold Sys.namexLoop at hr
    obtain ⟨_, s1, h1, hr⟩ := bind_ok hr
    obtain ⟨h, -, ht⟩ := h.ilock h1
    rw [h.inode] at hr
    split at hr
    · rename_i hdir
      obtain ⟨_, s2, h2, hr⟩ := bind_ok hr
      obtain ⟨rfl, rfl⟩ := pure_ok hr
      refine .inl ⟨rfl, ?_, h.iunlockput (List.not_mem_nil) (hq.held ht) h2⟩
      intro es' last dp hes hwalk
      cases es' with
      | nil =>
        cases hwalk
        exact hdir
      | cons e es' =>
        rw [walk, if_pos hdir] at hwalk
        cases hwalk
    · rename_i hdir
      split at hr
      · rename_i hlast
        obtain ⟨_, s2, h2, hr⟩ := bind_ok hr
        obtain ⟨rfl, rfl⟩ := pure_ok hr
        exact .inr ⟨ip, name, [], rfl, (h.iunlock (List.not_mem_nil) h2).1, not_not.mp hdir,
          by rw [hlast.2]; rfl, rfl⟩
      · rename_i hlast
        -- The element that was looked up is not the last one.
        have hcons : ∀ es' last dp, name :: rest = es' ++ [last] → walk nd ip es' = some dp →
            ∃ es'', es' = name :: es'' ∧ rest = es'' ++ [last] := by
          intro es' last dp hes _
          cases es' with
          | nil =>
            obtain ⟨-, hrest⟩ := List.cons.inj hes
            exact absurd ⟨rfl, hrest⟩ hlast
          | cons e es'' =>
            obtain ⟨rfl, hrest⟩ := List.cons.inj hes
            exact ⟨es'', rfl, hrest⟩
        obtain ⟨y, s2, h2, hr⟩ := bind_ok hr
        obtain ⟨-, hy⟩ := h.dirlookup h2
        cases hy with
        | inl hnone =>
          obtain ⟨rfl, hfind, -, h⟩ := hnone
          obtain ⟨_, s3, h3, hr⟩ := bind_ok hr
          obtain ⟨rfl, rfl⟩ := pure_ok hr
          refine .inl ⟨rfl, ?_, h.iunlockput (List.not_mem_nil) (hq.held ht) h3⟩
          intro es' last dp hes hwalk
          obtain ⟨es'', rfl, -⟩ := hcons es' last dp hes hwalk
          rw [walk, if_neg hdir, hfind] at hwalk
          cases hwalk
        | inr hsome =>
          obtain ⟨k, rfl, hfind, h⟩ := hsome
          obtain ⟨_, s3, h3, hr⟩ := bind_ok hr
          have hat := (h.perm (List.Perm.swap ..)).iunlockput (List.not_mem_nil) (hq.held ht) h3
          cases ih hat hr with
          | inl hend =>
            refine .inl ⟨hend.1, ?_, hend.2.2⟩
            intro es' last dp hes hwalk
            obtain ⟨es'', rfl, hrest⟩ := hcons es' last dp hes hwalk
            rw [walk, if_neg hdir, hfind] at hwalk
            exact hend.2.1 es'' last dp hrest hwalk
          | inr hend =>
            obtain ⟨dp, last, es', rfl, hend, hdp, rfl, hwalk⟩ := hend
            refine .inr ⟨dp, last, name :: es', rfl, hend, hdp, rfl, ?_⟩
            rw [walk, if_neg hdir, hfind]
            exact hwalk

theorem At.startInode (h : At s0 nd hs ls n s) {path : Str} {ip : Nat}
    (hr : startInode path s = .ok (ip, s')) :
    ip = s0.start path ∧ At s0 nd (ip :: hs) ls n s' := by
  have hcwd : s.myproc.cwd = s0.myproc.cwd := by rw [State.myproc, h.proc, h.cur, State.myproc]
  unfold Sys.startInode at hr
  obtain ⟨s1, s2, h1, hr⟩ := bind_ok hr
  cases h1
  unfold State.start
  split at hr
  · rename_i hc
    obtain ⟨_, s3, h3, hr⟩ := bind_ok hr
    obtain ⟨rfl, rfl⟩ := pure_ok hr
    rw [if_pos hc]
    exact ⟨rfl, h.iget h3⟩
  · rename_i hc
    obtain ⟨_, s3, h3, hr⟩ := bind_ok hr
    obtain ⟨rfl, rfl⟩ := pure_ok hr
    rw [if_neg hc]
    exact ⟨hcwd, h.idup h3⟩

/-- `namei` gives the inode that the path names, with a reference. -/
theorem At.namei (h : At s0 nd hs [] n s) (hq : Quiet s0.ref nd) {path : Str} {x : Option Nat}
    (hr : namei path s = .ok (x, s')) :
    x = walk nd (s0.start path) (elements path) ∧ At s0 nd (x.toList ++ hs) [] n s' := by
  unfold Sys.namei at hr
  obtain ⟨y, s1, h1, hr⟩ := bind_ok hr
  obtain ⟨rfl, rfl⟩ := pure_ok hr
  obtain ⟨ip, s2, h2, h3⟩ := bind_ok h1
  obtain ⟨rfl, h⟩ := h.startInode h2
  obtain ⟨hwalk, hend⟩ := h.namexLoop hq h3
  rw [hwalk]
  exact ⟨rfl, hend⟩

theorem At.nameiparent (h : At s0 nd hs [] n s) (hq : Quiet s0.ref nd) {path : Str}
    {x : Option (Nat × Str)} (hr : nameiparent path s = .ok (x, s')) :
    (x = none ∧ NoParent nd (s0.start path) (elements path) ∧ At s0 nd hs [] n s') ∨
    ∃ dp name es, x = some (dp, name) ∧
      At s0 nd (dp :: hs) [] n s' ∧ (nd dp).type = tDir ∧ elements path = es ++ [name] ∧
      walk nd (s0.start path) es = some dp := by
  obtain ⟨ip, s1, h1, h2⟩ := bind_ok hr
  obtain ⟨rfl, h⟩ := h.startInode h1
  exact h.namexParent hq h2

/-- The last element of a walk is looked up in the directory that the others lead to. -/
theorem walk_append (es : List Str) (ip : Nat) :
    walk nd ip (es ++ [name]) = (walk nd ip es).bind fun dp => walk nd dp [name] := by
  induction es generalizing ip with
  | nil => rfl
  | cons e es ih =>
    rw [List.cons_append, walk, walk]
    split
    · rfl
    · cases find (nd ip).data e with
      | none => rfl
      | some k => exact ih _

/-- A walk that succeeds still does after entries have been added. -/
theorem walk_mono {nd' : Nat → Node} {ip x : Nat} {es : List Str}
    (h : ∀ i, (nd i).type = tDir → (nd' i).type = tDir ∧
    ∀ e j, find (nd i).data e = some j →
      find (nd' i).data e = some j ∧ slot (nd' i).data j = slot (nd i).data j)
    (hw : walk nd ip es = some x) : walk nd' ip es = some x := by
  induction es generalizing ip with
  | nil => exact hw
  | cons e es ih =>
    unfold walk at hw ⊢
    split at hw
    · cases hw
    · rename_i hd
      obtain ⟨hd', hf⟩ := h ip (not_not.mp hd)
      rw [if_neg (not_not.mpr hd')]
      cases he : find (nd ip).data e with
      | none =>
        rw [he] at hw
        cases hw
      | some j =>
        rw [he] at hw
        obtain ⟨hf, hslot⟩ := hf e j he
        rw [hf]
        dsimp only
        rw [hslot]
        exact ih hw

end Calls

end Xv6Labs.Sys
