import Easing.Mapping.Report
import Easing.Proofs.Expression.Composition

/-! # Averages

The sums behind an average are taken in blocks and halves, which matters to rounding
alone: in exact arithmetic the average of a list is its sum by its length. So the
average of numbers in the unit interval is there too, and not above the greatest.
-/

namespace Easing.Rational

/-! ## Sums in blocks and halves -/

/-- Eight running sums over the first blocks of a list. -/
def runningSums (xs : List ℚ) (blocks : ℕ) : List ℚ :=
  (List.range blocks).tail.foldl
    (fun sums block => List.zipWith (· + ·) sums ((xs.drop (8 * block)).take 8)) (xs.take 8)

variable {xs : List ℚ}

theorem runningSums_one (xs : List ℚ) : runningSums xs 1 = xs.take 8 := rfl

theorem runningSums_succ (xs : List ℚ) (blocks : ℕ) :
    runningSums xs (blocks + 2) =
      List.zipWith (· + ·) (runningSums xs (blocks + 1)) ((xs.drop (8 * (blocks + 1))).take 8) := by
  have htail : (List.range (blocks + 2)).tail = (List.range (blocks + 1)).tail ++ [blocks + 1] := by
    rw [List.range_succ, List.tail_append_of_ne_nil (by simp)]
  rw [runningSums, htail, List.foldl_append, List.foldl_cons, List.foldl_nil]
  rfl

theorem length_runningSums {blocks : ℕ} (h : 8 * (blocks + 1) ≤ xs.length) :
    (runningSums xs (blocks + 1)).length = 8 := by
  induction blocks with
  | zero =>
      rw [runningSums_one, List.length_take]
      omega
  | succ blocks ih =>
      rw [runningSums_succ, List.length_zipWith, ih (by omega), List.length_take, List.length_drop]
      omega

/-- The running sums add up to all the blocks. -/
theorem sum_runningSums {blocks : ℕ} (h : 8 * (blocks + 1) ≤ xs.length) :
    (runningSums xs (blocks + 1)).sum = (xs.take (8 * (blocks + 1))).sum := by
  induction blocks with
  | zero => rw [runningSums_one]
  | succ blocks ih =>
      have hblock : ((xs.drop (8 * (blocks + 1))).take 8).length = 8 := by
        rw [List.length_take, List.length_drop]
        omega
      have hlength : (runningSums xs (blocks + 1)).length = 8 := length_runningSums (by omega)
      rw [runningSums_succ,
        ← List.sum_add_sum_eq_sum_zipWith_of_length_eq _ _ (hlength.trans hblock.symm),
        ih (by omega), ← List.sum_append, ← List.take_add, ← Nat.mul_succ]

theorem foldl_add (xs : List ℚ) (start : ℚ) : xs.foldl (· + ·) start = start + xs.sum := by
  induction xs generalizing start with
  | nil => rw [List.foldl_nil, List.sum_nil, add_zero]
  | cons x xs ih => rw [List.foldl_cons, ih, List.sum_cons, add_assoc]

variable [Elementary ℚ]

theorem isNaN_eq (x : ℚ) : Scalar.isNaN x = false := by simp [Scalar.isNaN]

theorem blockwise_eq (xs : List ℚ) : Average.blockwise xs = xs.sum := by
  unfold Average.blockwise
  dsimp only
  split
  next a b c d e f g h heq =>
    change runningSums xs (xs.length / 8) = [a, b, c, d, e, f, g, h] at heq
    -- Without a block there are fewer than eight numbers.
    have hblocks : xs.length / 8 ≠ 0 := by
      intro hzero
      have hlength := congrArg List.length heq
      rw [hzero] at hlength
      change (xs.take 8).length = 8 at hlength
      rw [List.length_take] at hlength
      omega
    obtain ⟨blocks, hblocks⟩ := Nat.exists_eq_succ_of_ne_zero hblocks
    have hsum : (runningSums xs (blocks + 1)).sum = (xs.take (8 * (blocks + 1))).sum :=
      sum_runningSums (by omega)
    rw [hblocks, Nat.succ_eq_add_one] at heq ⊢
    rw [heq] at hsum
    calc (xs.drop (8 * (blocks + 1))).foldl (· + ·) (a + b + (c + d) + (e + f + (g + h)))
        = [a, b, c, d, e, f, g, h].sum + (xs.drop (8 * (blocks + 1))).sum := by
          rw [foldl_add]
          simp only [List.sum_cons, List.sum_nil]
          ring
      _ = xs.sum := by rw [hsum, ← List.sum_append, List.take_append_drop]
  next => exact sum_eq xs

/-- Adding halves of a list is adding the list. -/
theorem pairwise_eq (xs : List ℚ) : Average.pairwise xs = xs.sum := by
  fun_induction Average.pairwise xs with
  | case1 xs hshort => exact sum_eq xs
  | case2 xs hshort hblocks => exact blockwise_eq xs
  | case3 xs hshort hblocks half ih ih' => rw [ih, ih', ← List.sum_append, List.take_append_drop]

theorem mean_eq (xs : List ℚ) : Average.mean xs = xs.sum / xs.length := by
  simp only [Average.mean, isNaN_eq, pairwise_eq, Bool.not_false, Bool.false_eq_true, ↓reduceIte,
    List.map_id', List.countP_true]

theorem larger_eq (x y : ℚ) : Scalar.larger x y = max x y := by
  unfold Scalar.larger
  rw [max_def]
  split <;> split <;> linarith

theorem greatest_cons (x : ℚ) (xs : List ℚ) : Average.greatest (x :: xs) = xs.foldl max x := by
  have hlarger : (Scalar.larger : ℚ → ℚ → ℚ) = max := funext₂ larger_eq
  simp only [Average.greatest, isNaN_eq, Bool.not_false, List.filter_true, hlarger]

/-- The greatest number of a list is in the list and not below another one. -/
theorem max?_eq_greatest (hne : xs ≠ []) : xs.max? = some (Average.greatest xs) := by
  obtain ⟨x, rest, rfl⟩ := List.exists_cons_of_ne_nil hne
  rw [greatest_cons, List.max?_cons']

/-- An average of numbers in the unit interval. -/
theorem mean_between (hne : xs ≠ []) (hunit : ∀ x ∈ xs, 0 ≤ x ∧ x ≤ 1) :
    0 ≤ Average.mean xs ∧ Average.mean xs ≤ Average.greatest xs ∧ Average.greatest xs ≤ 1 ∧
      (Average.greatest xs = 0 ↔ ∀ x ∈ xs, x = 0) := by
  obtain ⟨hmem, hall⟩ := List.max?_eq_some_iff.mp (max?_eq_greatest hne)
  have hpos : (0 : ℚ) < xs.length := Nat.cast_pos.mpr (List.length_pos_iff.mpr hne)
  rw [mean_eq]
  refine ⟨?_, ?_, (hunit _ hmem).2, fun hzero x hx => ?_, fun hzero => hzero _ hmem⟩
  · exact div_nonneg (List.sum_nonneg fun x hx => (hunit x hx).1) hpos.le
  · rw [div_le_iff₀' hpos, ← nsmul_eq_mul]
    exact List.sum_le_card_nsmul xs _ hall
  · exact le_antisymm (hzero ▸ hall x hx) (hunit x hx).1

end Easing.Rational
