import Mathlib.Algebra.Order.Field.Power
import Mathlib.Data.Rat.Cast.Order
import Mathlib.Tactic.Linarith
import Mathlib.Tactic.Positivity
import Mathlib.Tactic.Ring
import ReplyCache.Decimal.Shortest

namespace ReplyCache

namespace Decimal

/-- What the significand and the exponent of a positive double satisfy. -/
structure IsDouble (m : Nat) (q : Int) : Prop where
  pos : 0 < m
  bounded : m < 2 * Binary.leadingBit
  least : Binary.leastExponent ≤ q
  normal : q = Binary.leastExponent ∨ Binary.leadingBit ≤ m

structure InFormat (m : Nat) (q : Int) : Prop where
  bounded : m < 2 * Binary.leadingBit
  least : Binary.leastExponent ≤ q
  normal : q = Binary.leastExponent ∨ Binary.leadingBit ≤ m

theorem IsDouble.inFormat {m : Nat} {q : Int} (h : IsDouble m q) : InFormat m q :=
  ⟨h.bounded, h.least, h.normal⟩

def value (c : Nat) (k : Int) : ℚ := c * 10 ^ k

def quarterUnit (q : Int) : ℚ := 2 ^ (q - 2)

/-- How many quarters of a unit the interval reaches below the double. -/
def reach (m : Nat) (q : Int) : Nat := if Binary.isNarrowBelow m q then 1 else 2

theorem quarterUnit_pos (q : Int) : 0 < quarterUnit q := by
  simp only [quarterUnit]
  positivity

theorem reach_le (m : Nat) (q : Int) : reach m q ≤ 2 := by
  simp only [reach]
  split <;> omega

theorem reach_of_ne {m : Nat} (h : m ≠ Binary.leadingBit) (q : Int) : reach m q = 2 := by
  simp [reach, Binary.isNarrowBelow, h]

theorem reach_leadingBit {q : Int} (h : q ≠ Binary.leastExponent) :
    reach Binary.leadingBit q = 1 := by
  simp [reach, Binary.isNarrowBelow, h]

theorem gridStep_pos (q k : Int) : 0 < gridStep q k := by
  simp only [gridStep, Nat.pow_eq]
  positivity

theorem quarter_pos (q k : Int) : 0 < quarter q k := by
  simp only [quarter, Nat.pow_eq]
  positivity

theorem zpow_mul_pow_toNat (b : ℚ) (hb : b ≠ 0) (n : Int) :
    b ^ n * b ^ (-n).toNat = b ^ n.toNat := by
  rw [← zpow_natCast, ← zpow_natCast, ← zpow_add₀ hb]
  congr 1
  omega

theorem quarter_mul_zpow (q k : Int) :
    (quarter q k : ℚ) * 10 ^ k = quarterUnit q * gridStep q k := by
  have h2 := zpow_mul_pow_toNat 2 (by norm_num) (q - 2)
  have h10 := zpow_mul_pow_toNat 10 (by norm_num) k
  rw [neg_sub] at h2
  simp only [quarter, gridStep, quarterUnit, Nat.pow_eq]
  push_cast
  rw [← h2, ← h10]
  ring

theorem value_mul_gridStep (n : Nat) (q k : Int) :
    value n k * gridStep q k = n * gridStep q k * 10 ^ k := by
  simp only [value]
  ring

theorem quarterUnit_le_value_iff {a : ℚ} {n : Nat} {q k : Int} :
    a * quarterUnit q ≤ value n k ↔ a * quarter q k ≤ n * gridStep q k := by
  have hG : (0 : ℚ) < gridStep q k := by exact_mod_cast gridStep_pos q k
  have h10 : (0 : ℚ) < 10 ^ k := by positivity
  rw [← mul_le_mul_iff_left₀ hG, value_mul_gridStep, mul_assoc, ← quarter_mul_zpow, ← mul_assoc,
    mul_le_mul_iff_left₀ h10]

theorem value_le_quarterUnit_iff {a : ℚ} {n : Nat} {q k : Int} :
    value n k ≤ a * quarterUnit q ↔ n * gridStep q k ≤ a * quarter q k := by
  have hG : (0 : ℚ) < gridStep q k := by exact_mod_cast gridStep_pos q k
  have h10 : (0 : ℚ) < 10 ^ k := by positivity
  rw [← mul_le_mul_iff_left₀ hG, value_mul_gridStep, mul_assoc a, ← quarter_mul_zpow, ← mul_assoc a,
    mul_le_mul_iff_left₀ h10]

theorem cast_low {m : Nat} (hm : 0 < m) (q : Int) :
    ((4 * m - reach m q : Nat) : ℚ) = 4 * m - reach m q := by
  have hr := reach_le m q
  rw [Nat.cast_sub (by omega)]
  push_cast
  ring

/-- The numbers that round to the double `m · 2 ^ q`. The ends of the interval belong to it when `m`
is even. -/
structure Rounds (m : Nat) (q : Int) (x : ℚ) : Prop where
  low : (4 * m - reach m q) * quarterUnit q ≤ x
  high : x ≤ (4 * m + 2) * quarterUnit q
  odd : m % 2 = 1 → (4 * m - reach m q) * quarterUnit q < x ∧ x < (4 * m + 2) * quarterUnit q

theorem roundsTo_bounds {m n : Nat} {q k : Int} (hm : 0 < m) (h : roundsTo m q k n = true) :
    Rounds m q (value n k) := by
  have hlow := cast_low hm q
  by_cases heven : m % 2 = 0
  · simp only [roundsTo, heven, if_true, Bool.and_eq_true, decide_eq_true_eq] at h
    obtain ⟨h1, h2⟩ := h
    change (4 * m - reach m q) * quarter q k ≤ n * gridStep q k at h1
    refine ⟨quarterUnit_le_value_iff.2 ?_, value_le_quarterUnit_iff.2 ?_, by omega⟩
    · rw [← hlow]
      exact_mod_cast h1
    · exact_mod_cast h2
  · simp only [roundsTo, heven, if_false, Bool.and_eq_true, decide_eq_true_eq] at h
    obtain ⟨h1, h2⟩ := h
    change (4 * m - reach m q) * quarter q k < n * gridStep q k at h1
    have hlowLt : (4 * m - reach m q) * quarterUnit q < value n k := by
      rw [← not_le, value_le_quarterUnit_iff, not_le, ← hlow]
      exact_mod_cast h1
    have hhighLt : value n k < (4 * m + 2) * quarterUnit q := by
      rw [← not_le, quarterUnit_le_value_iff, not_le]
      exact_mod_cast h2
    exact ⟨hlowLt.le, hhighLt.le, fun _ => ⟨hlowLt, hhighLt⟩⟩

theorem quarterUnit_add_one (q : Int) : quarterUnit (q + 1) = 2 * quarterUnit q := by
  simp only [quarterUnit]
  rw [add_sub_right_comm, zpow_add_one₀ (by norm_num), mul_comm]

/-- The intervals of two significands under one exponent meet in a point only between neighbours,
and of two neighbours one is odd and leaves its ends out. -/
theorem not_rounds_both_of_lt {m m' : Nat} {q : Int} {x : ℚ} (hlt : m < m') (h : Rounds m q x) :
    ¬ Rounds m' q x := by
  intro h'
  have hu := quarterUnit_pos q
  have hr : (reach m' q : ℚ) ≤ 2 := by exact_mod_cast reach_le m' q
  have hstep : (m : ℚ) + 1 ≤ m' := by exact_mod_cast hlt
  have hcoef : (4 * m + 2 : ℚ) ≤ 4 * m' - reach m' q := by linarith
  have hends := mul_le_mul_of_nonneg_right hcoef hu.le
  have hle := h.high
  have hge := h'.low
  rcases Nat.mod_two_eq_zero_or_one m with he | ho
  · rcases Nat.mod_two_eq_zero_or_one m' with he' | ho'
    · -- both even, so the significands are no neighbours
      have hfar : (m : ℚ) + 2 ≤ m' := by exact_mod_cast (by omega : m + 2 ≤ m')
      have hcoef' : (4 * m + 2 : ℚ) < 4 * m' - reach m' q := by linarith
      have hends' := mul_lt_mul_of_pos_right hcoef' hu
      linarith
    · have hstrict := (h'.odd ho').1
      linarith
  · have hstrict := (h.odd ho).2
    linarith

/-- Where the doubles of an exponent end. Numbers from here on round to a greater exponent. -/
def edge (q : Int) : ℚ := (4 * Binary.leadingBit - 1) * quarterUnit (q + 1)

theorem edge_mono {p q : Int} (h : p ≤ q) : edge p ≤ edge q := by
  have hunit : quarterUnit (p + 1) ≤ quarterUnit (q + 1) :=
    zpow_le_zpow_right₀ (by norm_num) (by omega)
  exact mul_le_mul_of_nonneg_left hunit (by norm_num [Binary.leadingBit])

theorem lt_edge {m : Nat} {q : Int} {x : ℚ} (hd : InFormat m q) (h : Rounds m q x) :
    x < edge q := by
  have hu := quarterUnit_pos q
  have hedge : edge q = (8 * Binary.leadingBit - 2) * quarterUnit q := by
    rw [edge, quarterUnit_add_one]
    ring
  have hbounded : m < 2 * Binary.leadingBit := hd.bounded
  rw [hedge]
  rcases Nat.mod_two_eq_zero_or_one m with he | ho
  · have hless : m + 2 ≤ 2 * Binary.leadingBit := by
      have hlead : Binary.leadingBit = 4503599627370496 := rfl
      omega
    have hlessQ : (m : ℚ) + 2 ≤ 2 * Binary.leadingBit := by exact_mod_cast hless
    exact h.high.trans_lt (mul_lt_mul_of_pos_right (by linarith) hu)
  · have hlessQ : (m : ℚ) + 1 ≤ 2 * Binary.leadingBit := by exact_mod_cast hbounded
    exact (h.odd ho).2.trans_le (mul_le_mul_of_nonneg_right (by linarith) hu.le)

theorem edge_le {m : Nat} {p q : Int} {x : ℚ} (hd : InFormat m q) (h : Rounds m q x)
    (hp : Binary.leastExponent ≤ p) (hlt : p < q) : edge p ≤ x := by
  have hfoot : q ≠ Binary.leastExponent := by omega
  have hnormal : Binary.leadingBit ≤ m := hd.normal.resolve_left hfoot
  have hcoef : (4 * Binary.leadingBit - 1 : ℚ) ≤ 4 * m - reach m q := by
    rcases Nat.lt_or_ge Binary.leadingBit m with hgt | hsame
    · have hr : (reach m q : ℚ) ≤ 2 := by exact_mod_cast reach_le m q
      have hstep : (Binary.leadingBit : ℚ) + 1 ≤ m := by exact_mod_cast hgt
      linarith
    · obtain rfl : m = Binary.leadingBit := by omega
      rw [reach_leadingBit hfoot]
      push_cast
      linarith
  calc edge p ≤ edge (q - 1) := edge_mono (by omega)
    _ = (4 * Binary.leadingBit - 1) * quarterUnit q := by rw [edge, sub_add_cancel]
    _ ≤ (4 * m - reach m q) * quarterUnit q :=
        mul_le_mul_of_nonneg_right hcoef (quarterUnit_pos q).le
    _ ≤ x := h.low

theorem edge_le_iff {m : Nat} {p q : Int} {x : ℚ} (hd : InFormat m q) (h : Rounds m q x)
    (hp : Binary.leastExponent ≤ p) : edge p ≤ x ↔ p < q := by
  refine ⟨fun hle => ?_, edge_le hd h hp⟩
  by_contra hge
  exact absurd (hle.trans_lt (lt_edge hd h)) (not_lt.2 (edge_mono (by omega)))

theorem four_mul_quarterUnit (q : Int) : 4 * quarterUnit q = 2 ^ q := by
  rw [quarterUnit, zpow_sub₀ (by norm_num)]
  norm_num
  ring

theorem Rounds.near {m : Nat} {p q : Int} {x : ℚ} (hd : InFormat m q) (h : Rounds m q x)
    (hp : Binary.leastExponent ≤ p) (hx : x < 2 * Binary.leadingBit * 2 ^ p) :
    |m * 2 ^ q - x| ≤ 2 ^ p / 2 := by
  have hlow := h.low
  have hhigh := h.high
  rw [← four_mul_quarterUnit q, ← four_mul_quarterUnit p, abs_le]
  rw [← four_mul_quarterUnit p] at hx
  rcases Int.lt_or_le p q with hlt | hle
  · -- only a power of two lies so near above
    have hstep := quarterUnit_add_one p
    have hu := quarterUnit_pos p
    have hnext : q = p + 1 := by
      have hedge : x < edge (p + 1) := by
        rw [edge, quarterUnit_add_one]
        have hone : (1 : ℚ) ≤ Binary.leadingBit := by norm_num [Binary.leadingBit]
        nlinarith
      have hnot := (edge_le_iff hd h (p := p + 1) (by omega)).not.1 (not_le.2 hedge)
      omega
    subst hnext
    rw [hstep] at hlow hhigh ⊢
    have hnormal : Binary.leadingBit ≤ m := hd.normal.resolve_left (by omega)
    have hlead : m = Binary.leadingBit := by
      refine Nat.le_antisymm (Nat.le_of_not_lt fun hgt => ?_) hnormal
      have hr : (reach m (p + 1) : ℚ) ≤ 2 := by exact_mod_cast reach_le m (p + 1)
      have hgt' : (Binary.leadingBit : ℚ) + 1 ≤ m := by exact_mod_cast hgt
      have hcoef : (4 * Binary.leadingBit : ℚ) ≤ 4 * m - reach m (p + 1) := by linarith
      have hends := mul_le_mul_of_nonneg_right hcoef hu.le
      linarith
    rw [hlead, reach_leadingBit (by omega)] at hlow
    rw [hlead]
    push_cast at hlow
    constructor <;> linarith
  · have hr : (reach m q : ℚ) ≤ 2 := by exact_mod_cast reach_le m q
    have hu : quarterUnit q ≤ quarterUnit p := zpow_le_zpow_right₀ (by norm_num) (by omega)
    have hends := mul_le_mul_of_nonneg_right hr (quarterUnit_pos q).le
    constructor <;> linarith

theorem not_rounds_both_of_exponent_lt {m m' : Nat} {q q' : Int} {x : ℚ} (hd : InFormat m q)
    (hd' : InFormat m' q') (hlt : q < q') (h : Rounds m q x) : ¬ Rounds m' q' x :=
  fun h' => absurd (lt_edge hd h) (not_lt.2 (edge_le hd' h' hd.least hlt))

/-- A number rounds to one double only. -/
theorem eq_of_rounds {m m' : Nat} {q q' : Int} {x : ℚ} (hd : InFormat m q) (hd' : InFormat m' q')
    (h : Rounds m q x) (h' : Rounds m' q' x) : m = m' ∧ q = q' := by
  rcases lt_trichotomy q q' with hq | rfl | hq
  · exact (not_rounds_both_of_exponent_lt hd hd' hq h h').elim
  · rcases lt_trichotomy m m' with hm | rfl | hm
    · exact (not_rounds_both_of_lt hm h h').elim
    · exact ⟨rfl, rfl⟩
    · exact (not_rounds_both_of_lt hm h' h).elim
  · exact (not_rounds_both_of_exponent_lt hd' hd hq h' h).elim

theorem eq_of_roundsTo {m m' n n' : Nat} {q q' k k' : Int} (hd : IsDouble m q)
    (hd' : IsDouble m' q') (h : roundsTo m q k n = true) (h' : roundsTo m' q' k' n' = true)
    (heq : value n k = value n' k') : m = m' ∧ q = q' := by
  have hx' := roundsTo_bounds hd'.pos h'
  rw [← heq] at hx'
  exact eq_of_rounds hd.inFormat hd'.inFormat (roundsTo_bounds hd.pos h) hx'

theorem pow_digitCount_le {n : Nat} (hn : 0 < n) : 10 ^ (digitCount n - 1) ≤ n := by
  by_contra hlt
  have hpos : 0 < digitCount n := Nat.length_toDigits_pos
  rcases Nat.eq_or_lt_of_le (Nat.succ_le_of_lt hpos) with h1 | h2
  · rw [← h1] at hlt
    simp only [Nat.succ_eq_add_one, Nat.zero_add, Nat.sub_self, pow_zero] at hlt
    omega
  · have hle := (Nat.length_toDigits_le_iff (b := 10) (n := n) (k := digitCount n - 1)
      (by omega) (by omega)).2 (by omega)
    change digitCount n ≤ digitCount n - 1 at hle
    omega

theorem lt_pow_digitCount (n : Nat) : n < 10 ^ digitCount n :=
  (Nat.length_toDigits_le_iff (by omega) Nat.length_toDigits_pos).1 (Nat.le_refl _)

theorem zpow_firstPlace_le {m : Nat} (hm : 0 < m) (q : Int) :
    (10 : ℚ) ^ firstPlace m q ≤ m * 2 ^ q := by
  have hden : (0 : ℚ) < 2 ^ (-q).toNat := by positivity
  have hsplit : (m * 2 ^ q : ℚ) * 2 ^ (-q).toNat = m * 2 ^ q.toNat := by
    rw [mul_assoc, zpow_mul_pow_toNat 2 (by norm_num)]
  have hnum : 0 < m * 2 ^ q.toNat := by positivity
  refine le_of_mul_le_mul_right ?_ hden
  rw [hsplit]
  simp only [firstPlace, Nat.pow_eq]
  split
  · rename_i hle
    set g : Int := (digitCount (m * 2 ^ q.toNat) : Int) - digitCount (2 ^ (-q).toNat) with hg
    have hle' : (2 ^ (-q).toNat * 10 ^ g.toNat : ℚ) ≤ m * 2 ^ q.toNat * 10 ^ (-g).toNat := by
      exact_mod_cast hle
    have h10 : (0 : ℚ) < 10 ^ (-g).toNat := by positivity
    refine le_of_mul_le_mul_right ?_ h10
    have hz := zpow_mul_pow_toNat 10 (by norm_num) g
    calc (10 : ℚ) ^ g * 2 ^ (-q).toNat * 10 ^ (-g).toNat
        = 2 ^ (-q).toNat * (10 ^ g * 10 ^ (-g).toNat) := by ring
      _ = 2 ^ (-q).toNat * 10 ^ g.toNat := by rw [hz]
      _ ≤ m * 2 ^ q.toNat * 10 ^ (-g).toNat := hle'
  · -- one place less is right by the numbers of digits alone
    have hlow := pow_digitCount_le hnum
    have hhigh := lt_pow_digitCount (2 ^ (-q).toNat)
    have hpos : 0 < digitCount (m * 2 ^ q.toNat) := Nat.length_toDigits_pos
    have hlowQ : (10 : ℚ) ^ (digitCount (m * 2 ^ q.toNat) - 1) ≤ m * 2 ^ q.toNat := by
      exact_mod_cast hlow
    have hhighQ : (2 : ℚ) ^ (-q).toNat ≤ 10 ^ digitCount (2 ^ (-q).toNat) := by
      exact_mod_cast hhigh.le
    refine le_trans ?_ hlowQ
    apply le_trans (mul_le_mul_of_nonneg_left hhighQ (by positivity))
    rw [← zpow_natCast, ← zpow_natCast, ← zpow_add₀ (by norm_num)]
    exact zpow_le_zpow_right₀ (by norm_num) (by omega)

theorem roundsTo_of_lt {m n : Nat} {q k : Int}
    (hlow : (4 * m - reach m q) * quarter q k < n * gridStep q k)
    (hhigh : n * gridStep q k < (4 * m + 2) * quarter q k) : roundsTo m q k n = true := by
  have hlow' : (4 * m - if Binary.isNarrowBelow m q then 1 else 2) * quarter q k <
      n * gridStep q k := hlow
  by_cases heven : m % 2 = 0
  · simp [roundsTo, heven, hlow'.le, hhigh.le]
  · simp [roundsTo, heven, hlow', hhigh]

theorem gridStep_lt {m : Nat} {q k : Int} (hd : IsDouble m q)
    (hfine : 10 ^ 16 * gridStep q k ≤ 4 * m * quarter q k) :
    gridStep q k < 2 * (reach m q * quarter q k) := by
  have hQ := quarter_pos q k
  rw [Nat.mul_assoc] at hfine
  by_cases hlead : m = Binary.leadingBit
  · have hmq : m * quarter q k = 4503599627370496 * quarter q k := by rw [hlead]; rfl
    simp only [reach]
    split <;> omega
  · rw [reach_of_ne hlead]
    have hbound : m ≤ 9007199254740991 := Nat.le_of_lt_succ hd.bounded
    have hmq := Nat.mul_le_mul_right (quarter q k) hbound
    omega

theorem roundsTo_below_or_next {m : Nat} {q k : Int} (hd : IsDouble m q)
    (hfine : 10 ^ 16 * gridStep q k ≤ 4 * m * quarter q k) :
    roundsTo m q k (below m q k) = true ∨ roundsTo m q k (below m q k + 1) = true := by
  have hG := gridStep_pos q k
  have hreach := reach_le m q
  have hshort := gridStep_lt hd hfine
  have hbelow : below m q k * gridStep q k ≤ 4 * m * quarter q k := Nat.div_mul_le_self _ _
  have habove : 4 * m * quarter q k < (below m q k + 1) * gridStep q k := by
    rw [Nat.mul_comm (below m q k + 1)]
    exact Nat.lt_mul_div_succ _ hG
  have hnext : (below m q k + 1) * gridStep q k = below m q k * gridStep q k + gridStep q k :=
    Nat.succ_mul _ _
  have hlow : (4 * m - reach m q) * quarter q k = 4 * m * quarter q k - reach m q * quarter q k :=
    Nat.sub_mul _ _ _
  have hlowPos : reach m q * quarter q k ≤ 4 * m * quarter q k :=
    Nat.mul_le_mul_right _ (by have hpos := hd.pos; omega)
  have hhigh : (4 * m + 2) * quarter q k = 4 * m * quarter q k + 2 * quarter q k :=
    Nat.add_mul _ _ _
  have hreachQ : reach m q * quarter q k ≤ 2 * quarter q k := Nat.mul_le_mul_right _ hreach
  rcases Nat.lt_or_ge (4 * m * quarter q k)
      (below m q k * gridStep q k + reach m q * quarter q k) with hnear | hfar
  · exact .inl (roundsTo_of_lt (by omega) (by omega))
  · exact .inr (roundsTo_of_lt (by omega) (by omega))

theorem onGrid_ne_none {m : Nat} {q k : Int}
    (h : roundsTo m q k (below m q k) = true ∨ roundsTo m q k (below m q k + 1) = true) :
    onGrid m q k ≠ none := by
  intro hnone
  unfold onGrid at hnone
  dsimp only at hnone
  split at hnone
  · cases hnone
  · cases hnone
  · cases hnone
  · rename_i hno hno'
    rcases h with h | h
    · rw [h] at hno
      cases hno
    · rw [h] at hno'
      cases hno'

theorem nearer_eq (m : Nat) (q k : Int) :
    nearer m q k = below m q k ∨ nearer m q k = below m q k + 1 := by
  unfold nearer
  dsimp only
  split
  · exact .inl rfl
  · exact .inr rfl
  · split
    · exact .inl rfl
    · exact .inr rfl

theorem roundsTo_of_onGrid {m c : Nat} {q k : Int} (h : onGrid m q k = some c) :
    roundsTo m q k c = true := by
  unfold onGrid at h
  dsimp only at h
  split at h
  · rename_i hlow hhigh
    obtain rfl := Option.some.inj h
    rcases nearer_eq m q k with he | he <;> rw [he]
    · exact hlow
    · exact hhigh
  · rename_i hlow _
    obtain rfl := Option.some.inj h
    exact hlow
  · rename_i _ hhigh
    obtain rfl := Option.some.inj h
    exact hhigh
  · cases h

theorem fine_of_le {m : Nat} {q k : Int} (h : value (10 ^ 16) k ≤ m * 2 ^ q) :
    10 ^ 16 * gridStep q k ≤ 4 * m * quarter q k := by
  have h10 : (0 : ℚ) < 10 ^ k := by positivity
  have hG : (0 : ℚ) < gridStep q k := by exact_mod_cast gridStep_pos q k
  have hunit := four_mul_quarterUnit q
  have hscale := quarter_mul_zpow q k
  have hQ : ((10 ^ 16 * gridStep q k : Nat) : ℚ) ≤ (4 * m * quarter q k : Nat) := by
    refine le_of_mul_le_mul_right ?_ h10
    push_cast
    calc (10 ^ 16 * gridStep q k * 10 ^ k : ℚ) = value (10 ^ 16) k * gridStep q k := by
          simp only [value]
          push_cast
          ring
      _ ≤ m * 2 ^ q * gridStep q k := mul_le_mul_of_nonneg_right h hG.le
      _ = 4 * m * (quarterUnit q * gridStep q k) := by rw [← hunit]; ring
      _ = 4 * m * quarter q k * 10 ^ k := by rw [← hscale]; ring
  exact_mod_cast hQ

/-- What is written for a double reads back as it. -/
theorem roundsTo_shortest {m : Nat} {q : Int} (hd : IsDouble m q) :
    roundsTo m q (shortest m q).2 (shortest m q).1 = true := by
  unfold shortest
  dsimp only
  cases hfound : ((List.range mostDigits).map fun p : Nat => firstPlace m q - (p : Int)).findSome?
      fun k => (onGrid m q k).map (·, k) with
  | some e =>
      obtain ⟨k, -, hk⟩ := List.exists_of_findSome?_eq_some hfound
      obtain ⟨c, hc, rfl⟩ := Option.map_eq_some_iff.1 hk
      exact roundsTo_of_onGrid hc
  | none =>
      -- the last grid of the search is fine enough
      have hlast := List.findSome?_eq_none_iff.1 hfound (firstPlace m q - (16 : Nat))
        (List.mem_map.2 ⟨16, by decide, rfl⟩)
      refine (onGrid_ne_none (roundsTo_below_or_next hd (fine_of_le ?_))
        (Option.map_eq_none_iff.1 hlast)).elim
      refine le_trans (le_of_eq ?_) (zpow_firstPlace_le hd.pos q)
      simp only [value]
      rw [zpow_sub₀ (by norm_num)]
      norm_num
      ring

end Decimal

end ReplyCache
