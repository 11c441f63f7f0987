import GoTrees.Binary64.Basic
import Mathlib

/-!
# Rounding to a binary format

A decimal rounds to the number of a format that is nearest to it, and to the one with the even mantissa if
two are equally near. The numbers next to `m · 2 ^ e` are a unit `2 ^ e` away, only the one below a power
of two is half a unit away; so what rounds to the number is what lies between the points halfway to its
neighbours:

    (m - 1) · 2 ^ e  ──┼── [ ── m · 2 ^ e ── ] ──┼──  (m + 1) · 2 ^ e

The quotient of two whole numbers and the decimal that a text spells are rounded that way.
-/

namespace GoTrees

/-- A binary format: the bits of a mantissa, and the exponents of its finite numbers. -/
structure Format where
  precision : ℕ
  minExponent : ℤ
  maxExponent : ℤ
  wide : 1 < precision := by decide

namespace Format

/-- The format of double-precision numbers. -/
def binary64 : Format where
  precision := 53
  minExponent := Binary64.minExponent
  maxExponent := Binary64.maxExponent

/-- The format of single-precision numbers. -/
def binary32 : Format where
  precision := 24
  minExponent := -149
  maxExponent := 104

variable (F : Format)

/-- The magnitude of a number of the format, or of one beyond its greatest exponent. -/
def Holds (z : ℚ) : Prop := ∃ (m : ℕ) (e : ℤ), m < 2 ^ F.precision ∧ F.minExponent ≤ e ∧ z = m * 2 ^ e

/-- The parts of a number: the mantissa has all bits, except that there is a least exponent. -/
structure Normal (m : ℕ) (e : ℤ) : Prop where
  fits : m < 2 ^ F.precision
  least : F.minExponent ≤ e
  full : 2 ^ (F.precision - 1) ≤ m ∨ e = F.minExponent

/-- The magnitude rounds to `m · 2 ^ e`: no number of the format is nearer, and the mantissa is even if another
number is as near. -/
structure Rounds (q : ℚ) (m : ℕ) (e : ℤ) : Prop extends F.Normal m e where
  nearest : ∀ z, F.Holds z → |q - m * 2 ^ e| ≤ |q - z|
  tie : ∀ z, F.Holds z → z ≠ m * 2 ^ e → |q - z| = |q - m * 2 ^ e| → m % 2 = 0

variable {F}

theorem Normal.holds {m : ℕ} {e : ℤ} (h : F.Normal m e) : F.Holds (m * 2 ^ e) := ⟨m, e, h.fits, h.least, rfl⟩

/-! ### Neighbours -/

theorem two_zpow_pos (e : ℤ) : (0 : ℚ) < 2 ^ e := zpow_pos (by norm_num) e

theorem two_zpow_eq (e e' : ℤ) : (2 : ℚ) ^ e' = 2 ^ (e' - e) * 2 ^ e := by
  rw [← zpow_add₀ (by norm_num), sub_add_cancel]

theorem two_pow_precision (F : Format) : (2 : ℚ) ^ F.precision = 2 * 2 ^ (F.precision - 1) := by
  rw [← pow_succ', Nat.sub_add_cancel F.wide.le]

/-- A number is a multiple of a unit, or it is smaller than the numbers of that unit. -/
theorem Holds.split {z : ℚ} (h : F.Holds z) (e : ℤ) :
    (∃ k : ℕ, z = k * 2 ^ e) ∨ F.minExponent < e ∧ z ≤ (2 ^ (F.precision - 1) - 1 / 2) * 2 ^ e := by
  obtain ⟨m, e', fits, least, rfl⟩ := h
  rcases le_or_gt e e' with coarse | fine
  · refine .inl ⟨m * 2 ^ (e' - e).toNat, ?_⟩
    have steps : (2 : ℚ) ^ (e' - e) = 2 ^ (e' - e).toNat := by
      rw [← zpow_natCast, Int.toNat_of_nonneg (by omega)]
    rw [two_zpow_eq e e', steps]
    push_cast
    ring
  · refine .inr ⟨by omega, ?_⟩
    have unit : (2 : ℚ) ^ e' ≤ 2 ^ (e - 1) := zpow_le_zpow_right₀ (by norm_num) (by omega)
    have half : (2 : ℚ) ^ (e - 1) = 2 ^ e / 2 := zpow_sub_one₀ (by norm_num) e
    have mantissa : (m : ℚ) ≤ 2 ^ F.precision - 1 := by
      rw [le_sub_iff_add_le]
      exact_mod_cast fits
    calc (m : ℚ) * 2 ^ e' ≤ (2 ^ F.precision - 1) * 2 ^ (e - 1) := by
          gcongr
          exact le_trans (Nat.cast_nonneg m) mantissa
      _ = (2 ^ (F.precision - 1) - 1 / 2) * 2 ^ e := by rw [half, two_pow_precision]; ring

theorem Normal.above {m : ℕ} {e : ℤ} (n : F.Normal m e) {z : ℚ} (h : F.Holds z) (lt : m * 2 ^ e < z) :
    (m + 1) * 2 ^ e ≤ z := by
  have unit := two_zpow_pos e
  rcases h.split e with ⟨k, rfl⟩ | ⟨big, small⟩
  · have more : m < k := by exact_mod_cast lt_of_mul_lt_mul_right lt unit.le
    gcongr
    exact_mod_cast more
  · -- a number of a smaller unit is smaller than a mantissa with all bits
    have full : (2 : ℚ) ^ (F.precision - 1) ≤ m := by exact_mod_cast n.full.resolve_right (by omega)
    have less : (m : ℚ) * 2 ^ e ≤ (m - 1 / 2) * 2 ^ e := lt.le.trans (small.trans (by gcongr))
    linarith

/-- Half of the distance from a number to the one below it, in units of the number. -/
def halfBelow (F : Format) (m : ℕ) (e : ℤ) : ℚ :=
  if m = 2 ^ (F.precision - 1) ∧ F.minExponent < e then 1 / 4 else 1 / 2

theorem halfBelow_le (m : ℕ) (e : ℤ) : F.halfBelow m e ≤ 1 / 2 := by
  rw [halfBelow]
  split <;> norm_num

theorem halfBelow_pos (m : ℕ) (e : ℤ) : 0 < F.halfBelow m e := by
  rw [halfBelow]
  split <;> norm_num

/-- The nearest number below lies two halves away. -/
theorem Normal.below {m : ℕ} {e : ℤ} (n : F.Normal m e) {z : ℚ} (h : F.Holds z) (lt : z < m * 2 ^ e) :
    z ≤ (m - 2 * F.halfBelow m e) * 2 ^ e := by
  have unit := two_zpow_pos e
  have half := F.halfBelow_le m e
  rcases h.split e with ⟨k, rfl⟩ | ⟨big, small⟩
  · have less : k < m := by exact_mod_cast lt_of_mul_lt_mul_right lt unit.le
    have : (k : ℚ) + 1 ≤ m := by exact_mod_cast less
    gcongr
    linarith
  · have full := n.full.resolve_right (by omega)
    refine small.trans (mul_le_mul_of_nonneg_right ?_ unit.le)
    rw [halfBelow]
    split
    · next power =>
      rw [power.1]
      push_cast
      linarith
    · next other =>
      have more : 2 ^ (F.precision - 1) < m := lt_of_le_of_ne full fun same => other ⟨same.symm, big⟩
      have : (2 : ℚ) ^ (F.precision - 1) + 1 ≤ m := by exact_mod_cast more
      linarith

/-! ### What rounds to a number -/

/-- What lies between the points halfway to the neighbours rounds to the number, and so do these points if the
mantissa is even. -/
theorem rounds_of_between {m : ℕ} {e : ℤ} (n : F.Normal m e) {q : ℚ} (low : (m - F.halfBelow m e) * 2 ^ e ≤ q)
    (high : q ≤ (m + 1 / 2) * 2 ^ e)
    (ends : q = (m - F.halfBelow m e) * 2 ^ e ∨ q = (m + 1 / 2) * 2 ^ e → m % 2 = 0) : F.Rounds q m e where
  toNormal := n
  nearest := by
    intro z h
    rcases lt_trichotomy z (m * 2 ^ e) with lt | rfl | gt
    · have below := n.below h lt
      refine le_trans ?_ (le_abs_self (q - z))
      exact abs_le.mpr ⟨by linarith, by linarith⟩
    · exact le_rfl
    · have above := n.above h gt
      refine le_trans ?_ (neg_le_abs (q - z))
      exact abs_le.mpr ⟨by linarith, by linarith⟩
  tie := by
    intro z h ne same
    rcases ne.lt_or_gt with lt | gt
    · have below := n.below h lt
      have near : q - z ≤ |q - m * 2 ^ e| := same ▸ le_abs_self (q - z)
      refine ends (.inl (le_antisymm ?_ low))
      rcases abs_cases (q - m * 2 ^ e) with ⟨abs, _⟩ | ⟨abs, _⟩ <;> rw [abs] at near <;> linarith
    · have above := n.above h gt
      have near : -(q - z) ≤ |q - m * 2 ^ e| := same ▸ neg_le_abs (q - z)
      refine ends (.inr (le_antisymm high ?_))
      rcases abs_cases (q - m * 2 ^ e) with ⟨abs, _⟩ | ⟨abs, _⟩ <;> rw [abs] at near <;> linarith

/-- What is at most half of the least number rounds to zero. -/
theorem rounds_zero {q : ℚ} (nonneg : 0 ≤ q) (tiny : q ≤ 1 / 2 * 2 ^ F.minExponent) :
    F.Rounds q 0 F.minExponent := by
  have unit := two_zpow_pos F.minExponent
  have half := F.halfBelow_pos 0 F.minExponent
  refine rounds_of_between ⟨Nat.two_pow_pos _, le_rfl, .inr rfl⟩ ?_ ?_ fun _ => rfl
  · push_cast
    nlinarith
  · push_cast
    linarith

/-- A magnitude in units that give it all bits, rounded to a whole number of them, is rounded to the format; a
mantissa that becomes too large by that is a power of two. -/
theorem rounds_of_units {q : ℚ} {m : ℕ} {e : ℤ} (least : F.minExponent ≤ e)
    (short : q / 2 ^ e < 2 ^ F.precision)
    (full : (2 : ℚ) ^ (F.precision - 1) ≤ q / 2 ^ e ∨ e = F.minExponent) (low : (m : ℚ) - 1 / 2 ≤ q / 2 ^ e)
    (high : q / 2 ^ e ≤ m + 1 / 2) (even : q / 2 ^ e = m - 1 / 2 ∨ q / 2 ^ e = m + 1 / 2 → m % 2 = 0) :
    if m = 2 ^ F.precision then F.Rounds q (2 ^ (F.precision - 1)) (e + 1) else F.Rounds q m e := by
  have unit := two_zpow_pos e
  obtain ⟨t, rfl⟩ : ∃ t, q = t * 2 ^ e := ⟨q / 2 ^ e, by field_simp⟩
  rw [mul_div_cancel_right₀ t unit.ne'] at short full low high even
  have bits := F.two_pow_precision
  split_ifs with carry
  · have normal : F.Normal (2 ^ (F.precision - 1)) (e + 1) :=
      ⟨Nat.pow_lt_pow_right (by norm_num)
        (Nat.sub_lt (by have := F.wide; omega) one_pos), by omega, .inl le_rfl⟩
    have below : F.halfBelow (2 ^ (F.precision - 1)) (e + 1) = 1 / 4 := if_pos ⟨rfl, by omega⟩
    rw [carry] at low
    push_cast at low
    refine rounds_of_between normal ?_ ?_ fun _ => ?_
    · calc _ = (2 ^ F.precision - 1 / 2 : ℚ) * 2 ^ e := by
            rw [below, zpow_add_one₀ (by norm_num), bits]
            push_cast
            ring
        _ ≤ t * 2 ^ e := by gcongr
    · calc t * 2 ^ e ≤ (2 ^ F.precision + 1 : ℚ) * 2 ^ e := by
            gcongr
            exact short.le.trans (le_add_of_nonneg_right zero_le_one)
        _ = _ := by
            rw [zpow_add_one₀ (by norm_num), bits]
            push_cast
            ring
    · obtain ⟨k, hk⟩ : ∃ k, F.precision - 1 = k + 1 := ⟨F.precision - 2, by have := F.wide; omega⟩
      rw [hk, pow_succ]
      omega
  · have fits : m < 2 ^ F.precision := by
      refine lt_of_le_of_ne ?_ carry
      have : (m : ℚ) < 2 ^ F.precision + 1 := by linarith
      exact_mod_cast Nat.lt_succ_iff.mp (by exact_mod_cast this)
    have normal : F.Normal m e := by
      refine ⟨fits, least, full.imp_left fun full => ?_⟩
      have : (2 : ℚ) ^ (F.precision - 1) < m + 1 := by linarith
      exact_mod_cast Nat.lt_succ_iff.mp (by exact_mod_cast this)
    have above : (m : ℚ) - F.halfBelow m e ≤ t ∧ (t = m - F.halfBelow m e → m % 2 = 0) := by
      rw [halfBelow]
      split
      · next power =>
        have reached : (m : ℚ) ≤ t := by
          rw [power.1]
          push_cast
          exact full.resolve_right (by omega)
        exact ⟨by linarith, fun same => by linarith⟩
      · exact ⟨low, fun same => even (.inl same)⟩
    refine rounds_of_between normal (by gcongr; exact above.1) (by gcongr) ?_
    rintro (same | same)
    · exact above.2 (mul_right_cancel₀ unit.ne' same)
    · exact even (.inr (mul_right_cancel₀ unit.ne' same))

/-- Rounding does not pass over a number of the format. -/
theorem Rounds.le_of_le {q z : ℚ} {m : ℕ} {e : ℤ} (h : F.Rounds q m e) (hz : F.Holds z) (le : q ≤ z) :
    m * 2 ^ e ≤ z := by
  have near := (le_abs_self _).trans (abs_sub_comm q _ ▸ h.nearest z hz)
  rw [abs_of_nonpos (by linarith)] at near
  linarith

theorem Rounds.ge_of_ge {q z : ℚ} {m : ℕ} {e : ℤ} (h : F.Rounds q m e) (hz : F.Holds z) (ge : z ≤ q) :
    z ≤ m * 2 ^ e := by
  have near := (le_abs_self _).trans (h.nearest z hz)
  rw [abs_of_nonneg (by linarith)] at near
  linarith

theorem Normal.holds_next {m : ℕ} {e : ℤ} (n : F.Normal m e) : F.Holds ((m + 1) * 2 ^ e) := by
  rcases (Nat.succ_le_iff.mpr n.fits).lt_or_eq with less | top
  · exact ⟨m + 1, e, less, n.least, by push_cast; ring⟩
  · have power : ((m : ℚ) + 1) = 2 * 2 ^ (F.precision - 1) := by
      rw [← two_pow_precision]
      exact_mod_cast top
    refine ⟨2 ^ (F.precision - 1), e + 1, Nat.pow_lt_pow_right (by norm_num) (Nat.sub_lt ?_ one_pos), ?_, ?_⟩
    · have := F.wide
      omega
    · have := n.least
      omega
    · rw [power, zpow_add_one₀ (by norm_num)]
      push_cast
      ring

/-- The number after one with an even mantissa has an odd mantissa. -/
theorem Normal.odd_next {m m' : ℕ} {e e' : ℤ} (n : F.Normal m e) (n' : F.Normal m' e') (even : m % 2 = 0)
    (next : (m' * 2 ^ e' : ℚ) = (m + 1) * 2 ^ e) : m' % 2 = 1 := by
  rcases le_or_gt e' e with le | gt
  · obtain ⟨k, hk⟩ := Int.eq_ofNat_of_zero_le (sub_nonneg.mpr le)
    have same : m' = (m + 1) * 2 ^ k := by
      rw [two_zpow_eq e' e, hk, zpow_natCast, ← mul_assoc] at next
      exact_mod_cast mul_right_cancel₀ (two_zpow_pos e').ne' next
    cases k with
    | zero => omega
    | succ k =>
      -- the mantissa would have more bits than the format
      have full := n.full.resolve_right (by have := n'.least; omega)
      have bits : 2 ^ F.precision = 2 * 2 ^ (F.precision - 1) := by
        exact_mod_cast two_pow_precision F
      have more : (m + 1) * 2 ≤ m' := by
        rw [same, pow_succ, ← mul_assoc, mul_right_comm]
        exact Nat.le_mul_of_pos_right _ (Nat.two_pow_pos k)
      have := n'.fits
      omega
  · obtain ⟨k, hk⟩ := Int.eq_ofNat_of_zero_le (sub_nonneg.mpr (Int.add_one_le_iff.mpr gt))
    have same : m' * 2 ^ (k + 1) = m + 1 := by
      rw [two_zpow_eq e e', show e' - e = ((k + 1 : ℕ) : ℤ) by omega, zpow_natCast, ← mul_assoc] at next
      exact_mod_cast mul_right_cancel₀ (two_zpow_pos e).ne' next
    rw [pow_succ, ← mul_assoc] at same
    omega

/-- Rounding has one result. -/
theorem Rounds.le_rounds {q : ℚ} {m m' : ℕ} {e e' : ℤ} (h : F.Rounds q m e) (h' : F.Rounds q m' e') :
    (m' * 2 ^ e' : ℚ) ≤ m * 2 ^ e := by
  by_contra lt
  rw [not_le] at lt
  have same : |q - m' * 2 ^ e'| = |q - m * 2 ^ e| := le_antisymm (h'.nearest _ h.holds) (h.nearest _ h'.holds)
  have middle : q - m' * 2 ^ e' = -(q - m * 2 ^ e) := (abs_eq_abs.mp same).resolve_left fun same => by linarith
  -- the number after the lower one is the upper one, since it is not nearer
  have next : (m' * 2 ^ e' : ℚ) = (m + 1) * 2 ^ e := by
    have near := h.nearest _ h.holds_next
    have unit := two_zpow_pos e
    have above := h.above h'.holds lt
    rw [abs_of_pos (by linarith)] at near
    rcases abs_cases (q - (m + 1) * 2 ^ e) with ⟨dist, -⟩ | ⟨dist, -⟩ <;> linarith
  have odd := h.odd_next h'.toNormal (h.tie _ h'.holds lt.ne' same) next
  rw [h'.tie _ h.holds lt.ne same.symm] at odd
  cases odd

/-- A magnitude rounds to one number. -/
theorem Rounds.unique {q : ℚ} {m m' : ℕ} {e e' : ℤ} (h : F.Rounds q m e) (h' : F.Rounds q m' e') :
    (m * 2 ^ e : ℚ) = m' * 2 ^ e' :=
  le_antisymm (h'.le_rounds h) (h.le_rounds h')

/-! ### A wider and a narrower format -/

/-- The number is nearer to the magnitude than every other number of the format. -/
structure Settles (F : Format) (q : ℚ) (m : ℕ) (e : ℤ) : Prop extends F.Normal m e where
  nearer : ∀ z, F.Holds z → z ≠ m * 2 ^ e → |q - m * 2 ^ e| < |q - z|

theorem Normal.settles {m : ℕ} {e : ℤ} (n : F.Normal m e) : F.Settles (m * 2 ^ e) m e where
  toNormal := n
  nearer z _ other := by
    rw [sub_self, abs_zero, abs_pos, sub_ne_zero]
    exact other.symm

/-- The numbers of a format and the points halfway between them are numbers of a wider one. -/
structure Widens (G F : Format) : Prop where
  bits : F.precision + 2 ≤ G.precision
  least : G.minExponent + 2 ≤ F.minExponent

theorem Normal.holds_previous {m : ℕ} {e : ℤ} (n : F.Normal m e) (pos : 0 < m) :
    F.Holds ((m - 2 * F.halfBelow m e) * 2 ^ e) := by
  rw [halfBelow]
  split
  · next power =>
    refine ⟨2 ^ F.precision - 1, e - 1, Nat.sub_lt (Nat.two_pow_pos _) one_pos, by omega, ?_⟩
    rw [power.1, Nat.cast_sub Nat.one_le_two_pow, zpow_sub_one₀ (by norm_num)]
    push_cast
    rw [two_pow_precision]
    ring
  · refine ⟨m - 1, e, lt_of_le_of_lt (Nat.sub_le m 1) n.fits, n.least, ?_⟩
    rw [Nat.cast_sub pos]
    push_cast
    ring

/-- What settles on a number lies strictly between the points halfway to its neighbours. -/
theorem Settles.between {q : ℚ} {m : ℕ} {e : ℤ} (h : F.Settles q m e) (nonneg : 0 ≤ q) :
    (m - F.halfBelow m e) * 2 ^ e < q ∧ q < (m + 1 / 2) * 2 ^ e := by
  have unit := two_zpow_pos e
  have half : 0 < F.halfBelow m e * 2 ^ e := mul_pos (F.halfBelow_pos m e) unit
  constructor
  · by_contra far
    rw [not_lt] at far
    rcases Nat.eq_zero_or_pos m with rfl | pos
    · push_cast at far
      linarith
    · have near := h.nearer _ (h.holds_previous pos) (by linarith)
      have back : |q - (m - 2 * F.halfBelow m e) * 2 ^ e| ≤ -(q - m * 2 ^ e) :=
        abs_le.mpr ⟨by linarith, by linarith⟩
      linarith [neg_le_abs (q - m * 2 ^ e)]
  · by_contra far
    rw [not_lt] at far
    have near := h.nearer _ h.holds_next (by linarith)
    have back : |q - (m + 1) * 2 ^ e| ≤ q - m * 2 ^ e := abs_le.mpr ⟨by linarith, by linarith⟩
    linarith [le_abs_self (q - m * 2 ^ e)]

/-- A wider format holds the numbers halfway between two of a narrow one. -/
theorem Widens.holds_half {G : Format} (wider : G.Widens F) {m : ℕ} {e : ℤ} (n : F.Normal m e) :
    G.Holds ((m + 1 / 2) * 2 ^ e) ∧ (0 < m → G.Holds ((m - F.halfBelow m e) * 2 ^ e)) := by
  have fits := n.fits
  have least := n.least
  have bits := wider.bits
  have steps := wider.least
  have room : 4 * 2 ^ F.precision ≤ 2 ^ G.precision :=
    calc 4 * 2 ^ F.precision = 2 ^ (F.precision + 2) := by ring
      _ ≤ 2 ^ G.precision := Nat.pow_le_pow_right (by norm_num) bits
  refine ⟨⟨2 * m + 1, e - 1, by omega, by omega, ?_⟩, fun pos => ?_⟩
  · rw [zpow_sub_one₀ (by norm_num)]
    push_cast
    ring
  · rw [halfBelow]
    split
    · refine ⟨4 * m - 1, e - 2, by omega, by omega, ?_⟩
      rw [Nat.cast_sub (by omega), zpow_sub₀ (by norm_num)]
      push_cast
      ring
    · refine ⟨2 * m - 1, e - 1, by omega, by omega, ?_⟩
      rw [Nat.cast_sub (by omega), zpow_sub_one₀ (by norm_num)]
      push_cast
      ring

/-- What rounds in a wider format to something that settles on a number of the narrower one rounds to that
number: rounding twice passes over no point halfway between two numbers. -/
theorem Rounds.narrow {G : Format} (wider : G.Widens F) {q : ℚ} (nonneg : 0 ≤ q) {m m' : ℕ} {e e' : ℤ}
    (wide : G.Rounds q m' e') (settles : F.Settles (m' * 2 ^ e') m e) : F.Rounds q m e := by
  obtain ⟨low, high⟩ := settles.between (mul_nonneg (Nat.cast_nonneg m') (two_zpow_pos e').le)
  obtain ⟨above, below⟩ := wider.holds_half settles.toNormal
  have less : q < (m + 1 / 2) * 2 ^ e := by
    by_contra far
    exact absurd (wide.ge_of_ge above (not_lt.mp far)) (not_le.mpr high)
  have greater : (m - F.halfBelow m e) * 2 ^ e < q := by
    rcases Nat.eq_zero_or_pos m with rfl | pos
    · have half : 0 < F.halfBelow 0 e * 2 ^ e := mul_pos (F.halfBelow_pos 0 e) (two_zpow_pos e)
      push_cast
      linarith
    · by_contra far
      exact absurd (wide.le_of_le (below pos) (not_lt.mp far)) (not_le.mpr low)
  exact rounds_of_between settles.toNormal greater.le less.le fun ends =>
    ends.elim (fun same => absurd same greater.ne') fun same => absurd same less.ne

/-- There are three numbers of one byte between a whole number from eight on and one that is larger by an
eighth. -/
theorem exists_three {n : ℕ} (large : 8 ≤ n) : ∃ a b c : ℚ, n ≤ a ∧ a < b ∧ b < c ∧ c ≤ n * (9 / 8) ∧
    ∀ F : Format, 8 ≤ F.precision → F.minExponent ≤ -3 → F.Holds a ∧ F.Holds b ∧ F.Holds c := by
  have log : 3 ≤ n.log2 := (Nat.le_log2 (by omega)).mpr large
  -- the unit of which the number has between 64 and 128
  obtain ⟨u, hu⟩ : ∃ u : ℚ, u = 2 ^ ((n.log2 : ℤ) - 6) := ⟨_, rfl⟩
  have unit : 0 < u := hu ▸ two_zpow_pos _
  have scale : (2 : ℚ) ^ n.log2 = 64 * u := by
    rw [hu, zpow_sub₀ (by norm_num), zpow_natCast]
    norm_num
    ring
  have low : 64 * u ≤ n := by
    rw [← scale]
    exact_mod_cast Nat.log2_self_le (by omega)
  have high : n < 128 * u := by
    have above : n < 2 ^ (n.log2 + 1) := Nat.lt_log2_self
    have : (n : ℚ) < 2 ^ n.log2 * 2 := by
      rw [← pow_succ]
      exact_mod_cast above
    linarith
  have ceil : (n : ℚ) ≤ ⌈n / u⌉₊ * u := (div_le_iff₀ unit).mp (Nat.le_ceil _)
  have near : ⌈n / u⌉₊ * u < n + u := by
    have : (⌈n / u⌉₊ : ℚ) < n / u + 1 := Nat.ceil_lt_add_one (by positivity)
    calc ⌈n / u⌉₊ * u < (n / u + 1) * u := by gcongr
      _ = n + u := by field_simp
  have small : ⌈n / u⌉₊ < 129 := by
    have : (⌈n / u⌉₊ : ℚ) * u < 129 * u := by linarith
    exact_mod_cast lt_of_mul_lt_mul_right this unit.le
  refine ⟨⌈n / u⌉₊ * u, (⌈n / u⌉₊ + 1 : ℕ) * u, (⌈n / u⌉₊ + 2 : ℕ) * u, ceil, ?_, ?_, ?_,
    fun F bits least => ?_⟩
  · push_cast
    linarith
  · push_cast
    linarith
  · push_cast
    linarith
  · have room : 2 ^ 8 ≤ 2 ^ F.precision := Nat.pow_le_pow_right (by norm_num) bits
    have holds (k : ℕ) (hk : k ≤ 2) : F.Holds ((⌈n / u⌉₊ + k : ℕ) * u) :=
      ⟨⌈n / u⌉₊ + k, n.log2 - 6, by omega, by omega, by rw [← hu]⟩
    exact ⟨holds 0 (by omega), holds 1 (by omega), holds 2 le_rfl⟩

/-- A whole number from eight on rounds to less than what a wide format does not tell from a magnitude that
is larger by an eighth. -/
theorem Rounds.apart {G : Format} (bits : 8 ≤ F.precision ∧ 8 ≤ G.precision)
    (least : F.minExponent ≤ -3 ∧ G.minExponent ≤ -3) {n m₁ m₂ m : ℕ} {e₁ e₂ e : ℤ} {q q' : ℚ} (large : 8 ≤ n)
    (far : n * (9 / 8) ≤ q) (wide : G.Rounds q m e) (wide' : G.Rounds q' m e) (h : F.Rounds n m₁ e₁)
    (h' : F.Rounds q' m₂ e₂) : (m₁ * 2 ^ e₁ : ℚ) < m₂ * 2 ^ e₂ := by
  obtain ⟨a, b, c, first, second, third, last, holds⟩ := exists_three large
  obtain ⟨ha, hb, -⟩ := holds F bits.1 least.1
  obtain ⟨-, hb', hc⟩ := holds G bits.2 least.2
  have low : m₁ * 2 ^ e₁ ≤ a := h.le_of_le ha first
  have high : c ≤ m * 2 ^ e := wide.ge_of_ge hc (by linarith)
  have between : b ≤ q' := by
    by_contra less
    linarith [wide'.le_of_le hb' (not_le.mp less).le]
  linarith [h'.ge_of_ge hb between]

/-- Magnitudes on either side of a point halfway between two numbers round to different numbers. -/
theorem Rounds.lt_of_halfway {m m₁ m₂ : ℕ} {e e₁ e₂ : ℤ} (n : F.Normal m e) {q q' : ℚ}
    (low : q < (m + 1 / 2) * 2 ^ e) (high : (m + 1 / 2) * 2 ^ e < q') (h : F.Rounds q m₁ e₁)
    (h' : F.Rounds q' m₂ e₂) : (m₁ * 2 ^ e₁ : ℚ) < m₂ * 2 ^ e₂ := by
  have unit := two_zpow_pos e
  have below : (m₁ * 2 ^ e₁ : ℚ) ≤ m * 2 ^ e := by
    by_contra above
    have next := n.above h.holds (not_le.mp above)
    have near := (neg_le_abs _).trans (h.nearest _ n.holds)
    rcases abs_cases (q - m * 2 ^ e) with ⟨dist, -⟩ | ⟨dist, -⟩ <;> linarith
  have above : ((m + 1) * 2 ^ e : ℚ) ≤ m₂ * 2 ^ e₂ := by
    refine n.above h'.holds (not_le.mp fun below => ?_)
    have near := (le_abs_self _).trans (h'.nearest _ n.holds_next)
    rcases abs_cases (q' - (m + 1) * 2 ^ e) with ⟨dist, -⟩ | ⟨dist, -⟩ <;> linarith
  linarith

end Format

namespace Binary64

/-! ### Quotients -/

/-- A quotient is rounded to a whole number that is at most a half away, and to an even one if it is a half
away. -/
theorem roundDiv_spec (num : ℕ) {den : ℕ} (pos : 0 < den) : (roundDiv num den : ℚ) - 1 / 2 ≤ num / den ∧
    (num / den : ℚ) ≤ roundDiv num den + 1 / 2 ∧
    ((num / den : ℚ) = roundDiv num den - 1 / 2 ∨ (num / den : ℚ) = roundDiv num den + 1 / 2 →
      roundDiv num den % 2 = 0) := by
  have hden : (0 : ℚ) < den := by exact_mod_cast pos
  have rest : num % den < den := Nat.mod_lt num pos
  have parts : (num : ℚ) / den = (num / den : ℕ) + (num % den : ℕ) / den := by
    have whole : (num : ℚ) = den * (num / den : ℕ) + (num % den : ℕ) := by
      exact_mod_cast (Nat.div_add_mod num den).symm
    rw [whole]
    field_simp
  obtain ⟨part, hpart⟩ : ∃ part : ℚ, (num % den : ℕ) / den = part := ⟨_, rfl⟩
  have nonneg : 0 ≤ part := by rw [← hpart]; positivity
  simp only [roundDiv]
  rw [parts, hpart]
  split_ifs with low high even
  · have half : part < 1 / 2 := by
      rw [← hpart, div_lt_div_iff₀ hden (by norm_num)]
      exact_mod_cast (by omega : num % den * 2 < 1 * den)
    refine ⟨?_, ?_, ?_⟩
    · linarith only [nonneg]
    · linarith only [half]
    · rintro (h | h)
      · linarith only [h, nonneg]
      · linarith only [h, half]
  · have half : 1 / 2 < part := by
      rw [← hpart, div_lt_div_iff₀ (by norm_num) hden]
      exact_mod_cast (by omega : 1 * den < num % den * 2)
    have less : part < 1 := by
      rw [← hpart, div_lt_one hden]
      exact_mod_cast rest
    push_cast
    refine ⟨?_, ?_, ?_⟩
    · linarith only [half]
    · linarith only [less]
    · rintro (h | h)
      · linarith only [h, half]
      · linarith only [h, less]
  all_goals
    obtain rfl : part = 1 / 2 := by
      rw [← hpart, div_eq_div_iff hden.ne' (by norm_num)]
      exact_mod_cast (by omega : num % den * 2 = 1 * den)
    push_cast
  · exact ⟨by linarith only, by linarith only, fun _ => even⟩
  · exact ⟨by linarith only, by linarith only, fun _ => by omega⟩

theorem scaled_spec (num : ℕ) {den : ℕ} (pos : 0 < den) (e : ℤ) : 0 < (scaled num den e).2 ∧
    ((scaled num den e).1 / (scaled num den e).2 : ℚ) = num / den / 2 ^ e := by
  have hden : (den : ℚ) ≠ 0 := by exact_mod_cast pos.ne'
  cases e with
  | ofNat k =>
    refine ⟨Nat.mul_pos pos (Nat.pow_pos (by decide)), ?_⟩
    simp only [scaled, Nat.pow_eq, Nat.cast_mul, Nat.cast_pow, Nat.cast_ofNat,
      Int.ofNat_eq_natCast, zpow_natCast]
    field_simp
  | negSucc k =>
    refine ⟨pos, ?_⟩
    simp only [scaled, Nat.pow_eq, Nat.cast_mul, Nat.cast_pow, Nat.cast_ofNat, zpow_negSucc]
    field_simp

/-- A quotient lies between two powers of two. -/
theorem quotient_between {num den : ℕ} (hnum : 0 < num) (hden : 0 < den) :
    (2 : ℚ) ^ ((num.log2 : ℤ) - den.log2 - 1) < num / den ∧
      (num / den : ℚ) < 2 ^ ((num.log2 : ℤ) - den.log2 + 1) := by
  have bounds {n : ℕ} (hn : 0 < n) : (2 : ℚ) ^ (n.log2 : ℤ) ≤ n ∧ (n : ℚ) < 2 ^ ((n.log2 : ℤ) + 1) := by
    constructor
    · rw [zpow_natCast]
      exact_mod_cast Nat.log2_self_le hn.ne'
    · have above : n < 2 ^ (n.log2 + 1) := Nat.lt_log2_self
      rw [← Nat.cast_succ, zpow_natCast]
      exact_mod_cast above
  obtain ⟨numLow, numHigh⟩ := bounds hnum
  obtain ⟨denLow, denHigh⟩ := bounds hden
  have two : (2 : ℚ) ≠ 0 := by norm_num
  have pos : (0 : ℚ) < den := by exact_mod_cast hden
  constructor
  · rw [lt_div_iff₀ pos]
    calc (2 : ℚ) ^ ((num.log2 : ℤ) - den.log2 - 1) * den
        < 2 ^ ((num.log2 : ℤ) - den.log2 - 1) * 2 ^ ((den.log2 : ℤ) + 1) := by gcongr
      _ = 2 ^ (num.log2 : ℤ) := by rw [← zpow_add₀ two]; congr 1; ring
      _ ≤ num := numLow
  · rw [div_lt_iff₀ pos]
    calc (num : ℚ) < 2 ^ ((num.log2 : ℤ) + 1) := numHigh
      _ = 2 ^ ((num.log2 : ℤ) - den.log2 + 1) * 2 ^ (den.log2 : ℤ) := by rw [← zpow_add₀ two]; congr 1; ring
      _ ≤ 2 ^ ((num.log2 : ℤ) - den.log2 + 1) * den := by gcongr

/-- The units that a quotient is rounded in give it 53 bits, unless it is too small. -/
theorem exponentFor_spec {num den : ℕ} (hnum : 0 < num) (hden : 0 < den) :
    (num / den / 2 ^ exponentFor num den : ℚ) < 2 ^ 53 ∧ minExponent ≤ exponentFor num den ∧
      ((2 : ℚ) ^ 52 ≤ num / den / 2 ^ exponentFor num den ∨ exponentFor num den = minExponent) := by
  obtain ⟨lower, upper⟩ := quotient_between hnum hden
  generalize hguess : max minExponent (Int.ofNat num.log2 - Int.ofNat den.log2 - 53) = guess
  have units : exponentFor num den = if (num / den / 2 ^ guess : ℚ) < 2 ^ 53 then guess else guess + 1 := by
    obtain ⟨pos, value⟩ := scaled_spec num hden guess
    have hpos : (0 : ℚ) < (scaled num den guess).2 := by exact_mod_cast pos
    have same : (scaled num den guess).1 / (scaled num den guess).2 < Nat.pow 2 53 ↔
        (num / den / 2 ^ guess : ℚ) < 2 ^ 53 := by
      rw [Nat.div_lt_iff_lt_mul pos, ← value, div_lt_iff₀ hpos]
      norm_cast
    simp only [exponentFor, hguess, same]
  have times (k : ℕ) (e : ℤ) : (2 : ℚ) ^ k * 2 ^ e = 2 ^ ((k : ℤ) + e) := by
    rw [zpow_add₀ (by norm_num), zpow_natCast]
  rw [units]
  split_ifs with short
  · refine ⟨short, hguess ▸ le_max_left _ _, ?_⟩
    rcases max_choice minExponent (Int.ofNat num.log2 - Int.ofNat den.log2 - 53) with least | normal
    · exact .inr (hguess ▸ least)
    · left
      rw [le_div_iff₀ (Format.two_zpow_pos guess), times, ← hguess, normal]
      refine le_trans (zpow_le_zpow_right₀ (by norm_num) ?_) lower.le
      simp only [Int.ofNat_eq_natCast, Nat.cast_ofNat]
      omega
  · have least : minExponent ≤ guess := hguess ▸ le_max_left _ _
    have wide : Int.ofNat num.log2 - Int.ofNat den.log2 - 53 ≤ guess := hguess ▸ le_max_right _ _
    refine ⟨?_, by omega, .inl ?_⟩
    · rw [div_lt_iff₀ (Format.two_zpow_pos _), times]
      refine lt_of_lt_of_le upper (zpow_le_zpow_right₀ (by norm_num) ?_)
      simp only [Int.ofNat_eq_natCast, Nat.cast_ofNat] at wide ⊢
      omega
    · rw [not_lt, le_div_iff₀ (Format.two_zpow_pos _)] at short
      rw [le_div_iff₀ (Format.two_zpow_pos _), zpow_add_one₀ (by norm_num)]
      linarith

/-! ### Fractions and decimals -/

/-- A quotient is rounded to double precision. -/
theorem rounds_ofFraction {negative sign : Bool} {num den m : ℕ} {e : ℤ} (hnum : 0 < num) (hden : 0 < den)
    (h : ofFraction negative num den = .finite sign m e) :
    sign = negative ∧ e ≤ maxExponent ∧ Format.binary64.Rounds (num / den) m e := by
  obtain ⟨short, least, full⟩ := exponentFor_spec hnum hden
  obtain ⟨pos, value⟩ := scaled_spec num hden (exponentFor num den)
  obtain ⟨low, high, even⟩ := roundDiv_spec (scaled num den (exponentFor num den)).1 pos
  rw [value] at low high even
  have rounds := Format.rounds_of_units (F := Format.binary64) least short full low high even
  simp only [ofFraction, Nat.pow_eq] at h
  by_cases carry : roundDiv (scaled num den (exponentFor num den)).1
      (scaled num den (exponentFor num den)).2 = 2 ^ 53
  · rw [if_pos carry] at h
    rw [if_pos (by exact carry)] at rounds
    split_ifs at h with beyond
    cases h
    exact ⟨rfl, not_lt.mp beyond, rounds⟩
  · rw [if_neg carry] at h
    rw [if_neg (by exact carry)] at rounds
    split_ifs at h with beyond
    cases h
    exact ⟨rfl, not_lt.mp beyond, rounds⟩

theorem lt_pow_digitCount (n : ℕ) : n < 10 ^ digitCount n :=
  (Nat.length_toDigits_le_iff (by decide) Nat.length_toDigits_pos).mp le_rfl

/-- Decimals that are far too small round to zero. -/
theorem tiny_of_digitCount {digits : ℕ} {exponent : ℤ}
    (tiny : Int.ofNat (digitCount digits) + exponent < -330) :
    (digits : ℚ) * 10 ^ exponent ≤ 1 / 2 * 2 ^ Format.binary64.minExponent := by
  have ten : (10 : ℚ) ≠ 0 := by norm_num
  have count : (digits : ℚ) ≤ 10 ^ (Int.ofNat (digitCount digits)) := by
    rw [Int.ofNat_eq_natCast, zpow_natCast]
    exact_mod_cast (lt_pow_digitCount digits).le
  have powers : (2 : ℚ) ^ 1075 ≤ 10 ^ 331 := by
    calc (2 : ℚ) ^ 1075 ≤ 2 ^ (33 * 33) := pow_le_pow_right₀ (by norm_num) (by norm_num)
      _ = (2 ^ 33) ^ 33 := pow_mul 2 33 33
      _ ≤ (10 ^ 10) ^ 33 := pow_le_pow_left₀ (by norm_num) (by norm_num) 33
      _ = 10 ^ (10 * 33) := (pow_mul 10 10 33).symm
      _ ≤ 10 ^ 331 := pow_le_pow_right₀ (by norm_num) (by norm_num)
  calc (digits : ℚ) * 10 ^ exponent ≤ 10 ^ (Int.ofNat (digitCount digits)) * 10 ^ exponent := by gcongr
    _ = 10 ^ (Int.ofNat (digitCount digits) + exponent) := (zpow_add₀ ten _ _).symm
    _ ≤ 10 ^ (-331 : ℤ) := zpow_le_zpow_right₀ (by norm_num) (by omega)
    _ = (10 ^ 331)⁻¹ := by rw [zpow_neg, zpow_ofNat]
    _ ≤ (2 ^ 1075)⁻¹ := inv_anti₀ (by positivity) powers
    _ = 1 / 2 * 2 ^ Format.binary64.minExponent := by
      rw [show Format.binary64.minExponent = -1074 from rfl, zpow_neg, zpow_ofNat, pow_succ, mul_inv,
        mul_comm, one_div]

/-- A decimal is rounded to double precision. -/
theorem rounds_ofDecimal {negative sign : Bool} {digits m : ℕ} {exponent e : ℤ}
    (h : ofDecimal negative digits exponent = .finite sign m e) :
    sign = negative ∧ e ≤ maxExponent ∧ Format.binary64.Rounds (digits * 10 ^ exponent) m e := by
  have zero {q : ℚ} (nonneg : 0 ≤ q) (tiny : q ≤ 1 / 2 * 2 ^ Format.binary64.minExponent)
      (h : zero negative = .finite sign m e) :
      sign = negative ∧ e ≤ maxExponent ∧ Format.binary64.Rounds q m e := by
    cases h
    exact ⟨rfl, by decide, Format.rounds_zero nonneg tiny⟩
  unfold ofDecimal at h
  split at h
  · next none =>
    rw [none, Nat.cast_zero, zero_mul]
    exact zero le_rfl (mul_nonneg (by norm_num) (Format.two_zpow_pos _).le) h
  · next some =>
    dsimp only at h
    split_ifs at h with huge tiny
    · exact zero (by positivity) (tiny_of_digitCount tiny) h
    · cases exponent with
      | ofNat k =>
        have value : (digits : ℚ) * 10 ^ (Int.ofNat k) = (digits * Nat.pow 10 k : ℕ) / (1 : ℕ) := by
          simp
        rw [value]
        exact rounds_ofFraction (Nat.mul_pos (Nat.pos_of_ne_zero some) (Nat.pow_pos (by decide))) one_pos h
      | negSucc k =>
        have value : (digits : ℚ) * 10 ^ (Int.negSucc k) = digits / (Nat.pow 10 (k + 1) : ℕ) := by
          simp [zpow_negSucc, div_eq_mul_inv]
        rw [value]
        exact rounds_ofFraction (Nat.pos_of_ne_zero some) (Nat.pow_pos (by decide)) h

end Binary64

end GoTrees
