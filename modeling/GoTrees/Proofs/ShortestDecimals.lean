import GoTrees.Proofs.Numerals
import GoTrees.Proofs.Rounding

/-!
# Shortest decimals

The text of a double-precision number is a decimal that rounds to the number. The scan for it tries the two
neighbours of the number on grids of powers of ten, each finer than the one before. A hit lies where
everything rounds to the number, and on a grid that is no wider than a quarter of a unit the neighbour
below the number is a hit; the scan reaches such a grid before it stops.
-/

namespace GoTrees.Binary64

open Numeral

/-! ### Hits -/

theorem zpow_eq_div {b : ℚ} (hb : b ≠ 0) (z : ℤ) : b ^ z = b ^ z.toNat / b ^ (-z).toNat := by
  rw [← zpow_natCast, ← zpow_natCast, ← zpow_sub₀ hb]
  congr 1
  omega

theorem powers_spec (two ten : ℤ) : 0 < (powers two ten).2 ∧
    ((powers two ten).1 / (powers two ten).2 : ℚ) = 2 ^ two * 10 ^ ten := by
  refine ⟨Nat.mul_pos (Nat.pow_pos (by decide)) (Nat.pow_pos (by decide)), ?_⟩
  rw [zpow_eq_div (by norm_num) two, zpow_eq_div (by norm_num) ten, div_mul_div_comm]
  simp [powers]

/-- Does the fraction `n · den / num` lie in the interval? -/
def hits (i : Interval) (num den n : ℕ) : Bool :=
  if i.closed then i.low * num ≤ n * den && n * den ≤ i.high * num
  else i.low * num < n * den && n * den < i.high * num

/-- A candidate is a hit. -/
theorem hits_of_candidate {i : Interval} {unit grid : ℤ} {n : ℕ} (h : candidate i unit grid = some n) :
    hits i (powers unit (-grid)).1 (powers unit (-grid)).2 n = true := by
  unfold candidate at h
  dsimp only at h
  split at h
  · next hit _ =>
    cases h
    exact hit
  · next _ hit =>
    cases h
    exact hit
  · next below above =>
    split at h <;> cases h
    · exact below
    · exact above
  · cases h

theorem isSome_candidate {i : Interval} {unit grid : ℤ}
    (hit : hits i (powers unit (-grid)).1 (powers unit (-grid)).2
      (i.value * (powers unit (-grid)).1 / (powers unit (-grid)).2) = true) :
    (candidate i unit grid).isSome := by
  unfold candidate
  dsimp only
  split
  · rfl
  · rfl
  · split <;> rfl
  · next miss _ => exact absurd (hit.symm.trans miss) (by decide)

/-- The magnitude lies in an interval in units of `2 ^ unit`. -/
def Interval.Holds (i : Interval) (unit : ℤ) (q : ℚ) : Prop :=
  if i.closed then i.low * 2 ^ unit ≤ q ∧ q ≤ i.high * 2 ^ unit
  else i.low * 2 ^ unit < q ∧ q < i.high * 2 ^ unit

/-- A hit is a decimal in the interval around the number. -/
theorem hits_iff {i : Interval} {unit grid : ℤ} {n : ℕ} :
    hits i (powers unit (-grid)).1 (powers unit (-grid)).2 n = true ↔ i.Holds unit (n * 10 ^ grid) := by
  obtain ⟨pos, ratio⟩ := powers_spec unit (-grid)
  have den : (0 : ℚ) < (powers unit (-grid)).2 := by exact_mod_cast pos
  have ten : (0 : ℚ) < 10 ^ grid := zpow_pos (by norm_num) grid
  -- the powers of ten on one side are those on the other
  have scale (k : ℕ) : (k : ℚ) * 2 ^ unit = k * (powers unit (-grid)).1 / (powers unit (-grid)).2 *
      10 ^ grid := by
    rw [mul_div_assoc, ratio, zpow_neg]
    field_simp
  have le (k l : ℕ) : k * (powers unit (-grid)).1 ≤ l * (powers unit (-grid)).2 ↔
      (k : ℚ) * 2 ^ unit ≤ l * 10 ^ grid := by
    rw [scale, mul_le_mul_iff_left₀ ten, div_le_iff₀ den]
    norm_cast
  have ge (k l : ℕ) : l * (powers unit (-grid)).2 ≤ k * (powers unit (-grid)).1 ↔
      (l : ℚ) * 10 ^ grid ≤ k * 2 ^ unit := by
    rw [scale, mul_le_mul_iff_left₀ ten, le_div_iff₀ den]
    norm_cast
  rw [hits, Interval.Holds]
  split
  · rw [Bool.and_eq_true, decide_eq_true_iff, decide_eq_true_iff, le, ge]
  · rw [Bool.and_eq_true, decide_eq_true_iff, decide_eq_true_iff, ← not_le, ge, ← not_le, le, not_le, not_le]

/-! ### Intervals -/

/-- The interval reaches halfway to the neighbours of the number. -/
theorem interval_ends {m : ℕ} (pos : 0 < m) (e : ℤ) :
    ((interval m e).low : ℚ) * 2 ^ (e - 2) = (m - Format.binary64.halfBelow m e) * 2 ^ e ∧
      ((interval m e).value : ℚ) * 2 ^ (e - 2) = m * 2 ^ e ∧
      ((interval m e).high : ℚ) * 2 ^ (e - 2) = (m + 1 / 2) * 2 ^ e := by
  have quarter : (2 : ℚ) ^ (e - 2) = 2 ^ e / 4 := by
    rw [zpow_sub₀ (by norm_num)]
    norm_num
  rw [quarter]
  refine ⟨?_, ?_, ?_⟩
  · have half : Format.binary64.halfBelow m e = if m = Nat.pow 2 52 ∧
        minExponent < e then 1 / 4 else 1 / 2 := rfl
    rw [half]
    simp only [interval, Bool.and_eq_true, decide_eq_true_eq]
    split
    · rw [Nat.cast_sub (by omega)]
      push_cast
      ring
    · rw [Nat.cast_sub (by omega)]
      push_cast
      ring
  · simp only [interval]
    push_cast
    ring
  · simp only [interval]
    push_cast
    ring

theorem rounds_of_interval {m : ℕ} {e : ℤ} (normal : Format.binary64.Normal m e) (pos : 0 < m) {q : ℚ}
    (h : (interval m e).Holds (e - 2) q) : Format.binary64.Rounds q m e := by
  obtain ⟨low, -, high⟩ := interval_ends pos e
  rw [Interval.Holds, low, high] at h
  split at h
  · next closed =>
    have even : m % 2 = 0 := by simpa [interval] using closed
    exact Format.rounds_of_between normal h.1 h.2 fun _ => even
  · exact Format.rounds_of_between normal h.1.le h.2.le fun ends =>
      ends.elim (fun same => absurd same h.1.ne') fun same => absurd same h.2.ne

/-- On a grid that is no wider than a quarter of a unit, the number has a neighbour that rounds to it. -/
theorem isSome_candidate_of_fine {m : ℕ} (pos : 0 < m) {e grid : ℤ} (fine : (10 : ℚ) ^ grid ≤ 2 ^ (e - 2)) :
    (candidate (interval m e) (e - 2) grid).isSome := by
  obtain ⟨pos', ratio⟩ := powers_spec (e - 2) (-grid)
  have den : (0 : ℚ) < (powers (e - 2) (-grid)).2 := by exact_mod_cast pos'
  have ten : (0 : ℚ) < 10 ^ grid := zpow_pos (by norm_num) grid
  have unit := Format.two_zpow_pos (e - 2)
  refine isSome_candidate (hits_iff.mpr ?_)
  generalize below : (interval m e).value * (powers (e - 2) (-grid)).1 / (powers (e - 2) (-grid)).2 = n
  have steps : ((interval m e).value * (powers (e - 2) (-grid)).1 : ℕ) / (powers (e - 2) (-grid)).2 *
    (10 : ℚ) ^ grid =
      4 * m * 2 ^ (e - 2) := by
    simp only [interval]
    push_cast
    rw [mul_div_assoc, ratio, zpow_neg]
    field_simp
  have floor : ⌊(((interval m e).value * (powers (e - 2) (-grid)).1 : ℕ) /
      (powers (e - 2) (-grid)).2 : ℚ)⌋₊ = n := by
    rw [Nat.floor_div_eq_div, below]
  have reached : n * (10 : ℚ) ^ grid ≤ 4 * m * 2 ^ (e - 2) := by
    rw [← steps, ← floor]
    gcongr
    exact Nat.floor_le (by positivity)
  have near : 4 * m * 2 ^ (e - 2) < (n + 1) * (10 : ℚ) ^ grid := by
    rw [← steps, ← floor]
    gcongr
    exact Nat.lt_floor_add_one _
  have low : ((interval m e).low : ℚ) ≤ 4 * m - 1 := by
    have : (interval m e).low + 1 ≤ 4 * m := by
      simp only [interval]
      split <;> omega
    rw [le_sub_iff_add_le]
    exact_mod_cast this
  have above : ((interval m e).low : ℚ) * 2 ^ (e - 2) < n * 10 ^ grid := by
    calc ((interval m e).low : ℚ) * 2 ^ (e - 2) ≤ (4 * m - 1) * 2 ^ (e - 2) := by gcongr
      _ < n * 10 ^ grid := by linarith
  have under : n * (10 : ℚ) ^ grid < (interval m e).high * 2 ^ (e - 2) := by
    simp only [interval]
    push_cast
    linarith
  rw [Interval.Holds]
  split
  · exact ⟨above.le, under.le⟩
  · exact ⟨above, under⟩

/-! ### The scan -/

theorem candidate_scan {i : Interval} {unit g : ℤ} (hit : (candidate i unit g).isSome) :
    ∀ {fuel : ℕ} {grid : ℤ},
    g ≤ grid → grid < g + fuel →
      candidate i unit (scan i unit fuel grid).2 = some (scan i unit fuel grid).1
  | 0, grid, le, lt => absurd lt (by simpa using le)
  | fuel + 1, grid, le, lt => by
      rw [scan]
      cases found : candidate i unit grid with
      | some n => exact found
      | none =>
        have other : g ≠ grid := by
          rintro rfl
          rw [found] at hit
          cases hit
        exact candidate_scan hit (by omega) (by push_cast at lt; omega)

/-- A grid that is fine enough for a number. -/
def fineGrid (e : ℤ) : ℤ := if 2 ≤ e then 0 else -((4 - e) / 3)

theorem fine_fineGrid (e : ℤ) : (10 : ℚ) ^ fineGrid e ≤ 2 ^ (e - 2) := by
  rw [fineGrid]
  split
  · exact one_le_zpow₀ (by norm_num) (by omega)
  · next small =>
    obtain ⟨k, hk⟩ : ∃ k : ℕ, (4 - e) / 3 = k := ⟨((4 - e) / 3).toNat, by omega⟩
    rw [hk]
    calc (10 : ℚ) ^ (-(k : ℤ)) = (10 ^ k)⁻¹ := by rw [zpow_neg, zpow_natCast]
      _ ≤ (8 ^ k)⁻¹ := inv_anti₀ (by positivity) (pow_le_pow_left₀ (by norm_num) (by norm_num) k)
      _ = 2 ^ (-(3 * k : ℤ)) := by
        rw [show (8 : ℚ) = 2 ^ 3 by norm_num, ← pow_mul, zpow_neg]
        norm_cast
      _ ≤ 2 ^ (e - 2) := zpow_le_zpow_right₀ (by norm_num) (by omega)

/-- The shortest decimal is rounded to the number. -/
theorem rounds_shortest {m : ℕ} {e : ℤ} (normal : Format.binary64.Normal m e) (pos : 0 < m)
    (finite : e ≤ maxExponent) :
    0 < (shortest m e).1 ∧ Format.binary64.Rounds ((shortest m e).1 * 10 ^ (shortest m e).2) m e := by
  have fine := isSome_candidate_of_fine pos (fine_fineGrid e)
  have log : m.log2 < 53 := (Nat.log2_lt pos.ne').mpr normal.fits
  have least : -1074 ≤ e := normal.least
  have most : e ≤ 971 := finite
  have found : candidate (interval m e) (e - 2) (shortest m e).2 = some (shortest m e).1 := by
    refine candidate_scan fine ?_ ?_ <;>
    · rw [fineGrid]
      simp only [Int.ofNat_eq_natCast]
      split <;> omega
  have holds := hits_iff.mp (hits_of_candidate found)
  refine ⟨Nat.pos_of_ne_zero fun none => ?_, rounds_of_interval normal pos holds⟩
  have low : 0 < ((interval m e).low : ℚ) * 2 ^ (e - 2) := by
    have : 0 < (interval m e).low := by
      simp only [interval]
      split <;> omega
    exact mul_pos (by exact_mod_cast this) (Format.two_zpow_pos _)
  rw [none, Nat.cast_zero, zero_mul, Interval.Holds] at holds
  split at holds <;> linarith [holds.1]

end GoTrees.Binary64
