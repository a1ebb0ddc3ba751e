import Mathlib.Algebra.Order.Floor.Div
import Mathlib.Data.List.Chain
import Mathlib.Data.List.Range
import TypeShape.Value.Inference

/-!
# Samples at an even stride

A sample of `count` among `n` elements takes the `i`-th at the index `i * n / count`, which is rounded
down.  The index after the last one would be `n` itself, so the indices of a sample and `n` are one
run of such quotients, and every step of the run is `n / count`, rounded down or up.

## Key results

- `step_stride`: one step of the run is the stride, rounded down or up
- `sampleIndices_stride`: how many indices a sample has, where they begin and end, and how far they
  are apart
-/

namespace TypeShape

/-- How many of `n` elements a sample of at most `maxSample` holds. -/
def sampleCount (n : Nat) (maxSample : Int) : Nat :=
  if 0 < maxSample ∧ maxSample < n then maxSample.toNat else n

/-- A sample is no larger than what it is taken from. -/
theorem sampleCount_le (n : Nat) (k : Int) : sampleCount n k ≤ n := by
  rw [sampleCount]
  split <;> omega

/-- A sample of something has an element. -/
theorem sampleCount_pos {n : Nat} (hn : 1 ≤ n) (k : Int) : 0 < sampleCount n k := by
  rw [sampleCount]
  split <;> omega

/-- The indices of a sample are the quotients up to the size of the sample. -/
theorem sampleIndices_eq_map (n : Nat) (k : Int) :
    sampleIndices n k = (List.range (sampleCount n k)).map fun i => i * n / sampleCount n k := by
  simp [sampleIndices, sampleCount]

/-! ## The run of the quotients -/

section Run

variable {n count : Nat}

/-- The stride, rounded up, is one more than rounded down unless it is whole. -/
theorem ceilDiv_of_mod (hcount : 0 < count) (hmod : n % count ≠ 0) :
    n ⌈/⌉ count = n / count + 1 := by
  have hcarry : count ≤ n % count + (count - 1) % count := by
    rw [Nat.mod_eq_of_lt (Nat.sub_lt hcount Nat.one_pos)]
    omega
  rw [Nat.ceilDiv_eq_add_pred_div, Nat.add_sub_assoc hcount, Nat.add_div hcount, if_pos hcarry,
    Nat.div_eq_of_lt (Nat.sub_lt hcount Nat.one_pos)]

/-- One step of the run is the stride, rounded down or up. -/
theorem step_stride (hcount : 0 < count) (i : Nat) :
    (i + 1) * n / count = i * n / count + n / count ∨
      (i + 1) * n / count = i * n / count + n ⌈/⌉ count := by
  rw [Nat.succ_mul, Nat.add_div hcount]
  split
  · -- what is left over at `i` is below `count`, so the stride is not whole
    rename_i hcarry
    have hmod : n % count ≠ 0 := by
      have := Nat.mod_lt (i * n) hcount
      omega
    exact .inr (by rw [ceilDiv_of_mod hcount hmod, Nat.add_assoc])
  · exact .inl rfl

/-- The quotients grow, because there are at least as many elements as the sample has. -/
theorem quotient_lt_quotient (hcount : 0 < count) (hle : count ≤ n) {i j : Nat} (h : i < j) :
    i * n / count < j * n / count := by
  have hstep : i * n / count + 1 ≤ (i + 1) * n / count := by
    rw [Nat.succ_mul]
    calc i * n / count + 1 = (i * n + count) / count := (Nat.add_div_right _ hcount).symm
      _ ≤ (i * n + n) / count := Nat.div_le_div_right (by omega)
  exact hstep.trans (Nat.div_le_div_right (Nat.mul_le_mul_right n h))

/-- In signed words of 64 bits, whose products wrap around, the same quotient comes out if the
products of the whole run fit. -/
theorem ofNat_quotient (hfits : n * count < 2 ^ 63) (hn : 1 ≤ n) {i : Nat} (hi : i < count) :
    Int64.ofNat (i * n / count) = Int64.ofNat i * Int64.ofNat n / Int64.ofNat count := by
  have hproduct : i * n < 2 ^ 63 := by
    calc i * n ≤ count * n := Nat.mul_le_mul_right n hi.le
      _ = n * count := Nat.mul_comm _ _
      _ < 2 ^ 63 := hfits
  have hcount : count < 2 ^ 63 := (Nat.le_mul_of_pos_left count hn).trans_lt hfits
  rw [Int64.ofNat_div hproduct hcount, Int64.ofNat_mul]

end Run

/-! ## The indices of a sample -/

variable {n : Nat} {k : Int}

/-- The indices and the number of elements are one run of quotients. -/
theorem sampleIndices_append (hn : 1 ≤ n) (k : Int) :
    sampleIndices n k ++ [n] =
      (List.range (sampleCount n k + 1)).map fun i => i * n / sampleCount n k := by
  rw [sampleIndices_eq_map, List.range_succ, List.map_append, List.map_singleton,
    Nat.mul_div_cancel_left n (sampleCount_pos hn k)]

/-- A sample holds as many indices as it should, begins at the first element, takes no element twice
and none that is not there, and goes on by the stride, rounded down or up, until it is through.
Signed words of 64 bits give the same indices. -/
theorem sampleIndices_stride (hn : 1 ≤ n) (k : Int) (hfits : n * sampleCount n k < 2 ^ 63) :
    (sampleIndices n k).length = sampleCount n k ∧
    (sampleIndices n k).head? = some 0 ∧
    (sampleIndices n k).Pairwise (· < ·) ∧
    (∀ i ∈ sampleIndices n k, i < n) ∧
    (sampleIndices n k ++ [n]).IsChain (fun i j =>
      j = i + n / sampleCount n k ∨ j = i + n ⌈/⌉ sampleCount n k) ∧
    (sampleIndices n k).map Int64.ofNat = (List.range (sampleCount n k)).map fun i =>
      Int64.ofNat i * Int64.ofNat n / Int64.ofNat (sampleCount n k) := by
  have hcount := sampleCount_pos hn k
  have hle := sampleCount_le n k
  -- The indices and `n` after them are quotients of growing numbers, one run of them.
  have hsorted : (sampleIndices n k ++ [n]).Pairwise (· < ·) := by
    rw [sampleIndices_append hn, List.pairwise_map]
    exact List.pairwise_lt_range.imp fun h => quotient_lt_quotient hcount hle h
  obtain ⟨hindices, -, hbelow⟩ := List.pairwise_append.1 hsorted
  refine ⟨?_, ?_, hindices, fun i hi => hbelow i hi n (List.mem_singleton_self n), ?_, ?_⟩
  · simp [sampleIndices_eq_map]
  · simp [sampleIndices_eq_map, List.head?_range, hcount.ne']
  · rw [sampleIndices_append hn, List.isChain_map, List.isChain_range_succ]
    exact fun i _ => step_stride hcount i
  -- The hypothesis keeps every product within a signed word.
  · rw [sampleIndices_eq_map, List.map_map]
    exact List.map_congr_left fun i hi => ofNat_quotient hfits hn (List.mem_range.1 hi)

/-- Three of seven elements are taken at the indices 0, 2 and 4, in steps of 2 and 3. -/
theorem sampleIndices_stride_seven :
    1 ≤ 7 ∧ 7 * sampleCount 7 3 < 2 ^ 63 ∧ sampleIndices 7 3 = [0, 2, 4] ∧
      ([0, 2, 4] ++ [7]).IsChain (fun i j => j = i + 2 ∨ j = i + 3) :=
  have hn : 1 ≤ 7 := by decide
  have hfits : 7 * sampleCount 7 3 < 2 ^ 63 := by decide
  ⟨hn, hfits, by decide, (sampleIndices_stride hn 3 hfits).2.2.2.2.1⟩

end TypeShape
