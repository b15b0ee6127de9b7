import Xv6Labs.Fs.Forest

/-! First fit: `balloc` hands out the free blocks in increasing order. -/
namespace Xv6Labs.Fs
open Kit Bytes

/-- The free blocks, from the lowest on. -/
def Vol.free (sb : Superblock) (v : Vol) : List Nat :=
  (List.range sb.size).filter fun b => !v.bit sb b

variable {sb : Superblock} {v v' : Vol} {b x : Nat} {fs : List Nat}

theorem mem_free : b ∈ v.free sb ↔ b < sb.size ∧ ¬ v.bit sb b := by
  simp [Vol.free]

theorem free_congr (h : ∀ c < sb.size, v'.bit sb c = v.bit sb c) : v'.free sb = v.free sb := by
  apply List.filter_congr
  intro c hc
  rw [h c (List.mem_range.mp hc)]

/-- The first of a range of numbers to pass. -/
theorem filter_range_first {p : Nat → Bool} {s n : Nat} (hs : s ≤ b) (hb : b < s+n)
    (hp : p b) (h : ∀ c, s ≤ c → c < b → ¬ p c) : (List.range' s n).filter p =
      b :: (List.range' (b+1) (s+n - (b+1))).filter p := by
  obtain ⟨k, rfl⟩ := Nat.exists_eq_add_of_le hs
  obtain ⟨m, hm⟩ : ∃ m, n = k + (m + 1) := ⟨n - k - 1, by omega⟩
  have hnone : (List.range' s k).filter p = [] := by
    rw [List.filter_eq_nil_iff]
    intro c hc
    rw [List.mem_range'_1] at hc
    exact h c hc.1 hc.2
  have hrest : s+n - (s+k+1) = m := by omega
  rw [hrest, hm, ← List.range'_append_1, List.filter_append, hnone, List.nil_append,
    List.range'_succ, List.filter_cons_of_pos hp]

theorem free_eq : v.free sb = (List.range' 0 sb.size).filter fun b => !v.bit sb b := by
  rw [Vol.free, List.range_eq_range']

/-- A free block below which all are in use is the first. -/
theorem free_of_first (hb : b < sb.size) (hfree : ¬ v.bit sb b) (h : ∀ c < b, v.bit sb c) :
    ∃ fs, v.free sb = b :: fs := by
  rw [free_eq, filter_range_first (Nat.zero_le b) (by omega) (by simpa using hfree)]
  · exact ⟨_, rfl⟩
  · intro c _ hc
    simp [h c hc]

theorem balloc_free (sb : Superblock) (v : Vol) : (v.free sb = [] ∧ balloc sb v = (0, v)) ∨
    ∃ b fs, v.free sb = b :: fs ∧ balloc sb v = (b, v.take sb b) := by
  cases balloc_spec sb v with
  | inl hfull =>
    left
    refine ⟨?_, hfull.1⟩
    rw [List.eq_nil_iff_forall_not_mem]
    intro c hc
    exact (mem_free.mp hc).2 (hfull.2 c (mem_free.mp hc).1)
  | inr hfound =>
    obtain ⟨b, hb, hfree, hlow, heq⟩ := hfound
    right
    obtain ⟨fs, hfs⟩ := free_of_first hb hfree hlow
    exact ⟨b, fs, hfs, heq⟩

/-- The next block to be handed out is the next on the list. -/
theorem free_take (hL : sb.Layout) (hb : sb.IsData b) (h : v.free sb = b :: fs) :
    (v.take sb b).free sb = fs := by
  have hnodup : (v.free sb).Nodup := List.nodup_range.filter _
  rw [h, List.nodup_cons] at hnodup
  have hdrop : (v.take sb b).free sb = (v.free sb).filter (· ≠ b) := by
    unfold Vol.free
    rw [List.filter_filter]
    apply List.filter_congr
    intro c hc
    rw [take_bit hL hb (List.mem_range.mp hc)]
    simp
  rw [hdrop, h, List.filter_cons_of_neg (by simp), List.filter_eq_self]
  intro c hc
  have hne : c ≠ b := fun he => hnodup.1 (he ▸ hc)
  simpa using hne

/-- `balloc` in a forest: it takes the first of the free blocks, a data block. -/
theorem Owns.balloc {f : Place → Nat} {S : Set Place} (h : Owns sb v f S) (hL : sb.Layout) :
    (v.free sb = [] ∧ Fs.balloc sb v = (0, v)) ∨
    ∃ b, b ≠ 0 ∧ v.free sb = b :: (v.take sb b).free sb ∧ Fs.balloc sb v = (b, v.take sb b) := by
  rcases balloc_free sb v with hfull | ⟨b, fs, hfree, htake⟩
  · exact .inl hfull
  · have hmem : b ∈ v.free sb := by
      rw [hfree]
      exact List.mem_cons_self ..
    have hdata := h.free_isData (mem_free.mp hmem).1 (mem_free.mp hmem).2
    refine .inr ⟨b, hdata.ne_zero hL, ?_, htake⟩
    rw [free_take hL hdata hfree, hfree]

end Xv6Labs.Fs
