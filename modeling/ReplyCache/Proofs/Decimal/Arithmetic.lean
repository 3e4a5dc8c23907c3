import ReplyCache.Proofs.Decimal.Packed

namespace ReplyCache

namespace Decimal

open Float.Model (Format UnpackedFloat totalExponent)
open Float.Model.UnpackedFloat

/-- The number that a double stands for, up to the sign. -/
def magnitude (x : Float) : ℚ := (Binary.ofFloat x).significand * 2 ^ (Binary.ofFloat x).exponent

theorem pow_le_edge {k : Nat} (hk : k ≤ 1023) : (2 : ℚ) ^ k ≤ edge greatestExponent := by
  have hunit : quarterUnit (greatestExponent + 1) = 2 ^ 970 := by
    rw [← zpow_natCast]
    rfl
  calc (2 : ℚ) ^ k ≤ 2 ^ 1023 := pow_le_pow_right₀ (by norm_num) hk
    _ = 2 ^ 53 * 2 ^ 970 := by rw [← pow_add]
    _ ≤ edge greatestExponent := by
      rw [edge, hunit]
      exact mul_le_mul_of_nonneg_right (by norm_num [Binary.leadingBit]) (by positivity)

structure Unsigned (x : Float) : Prop where
  finite : x.isFinite = true
  positive : (Binary.ofFloat x).negative = false

/-- The double is what the number rounds to. -/
structure Rounded (x : Float) (r : ℚ) : Prop extends Unsigned x where
  rounds : Rounds (Binary.ofFloat x).significand (Binary.ofFloat x).exponent r

theorem Rounded.unique {x y : Float} {r : ℚ} (h : Rounded x r) (h' : Rounded y r) : x = y := by
  obtain ⟨hsig, hexp⟩ := eq_of_rounds (inFormat_ofFloat x) (inFormat_ofFloat y) h.rounds h'.rounds
  exact Binary.ofFloat_injective
    (Binary.eq_of_parts (h.positive.trans h'.positive.symm) hsig hexp)

theorem rounds_self {m : Nat} {q : Int} : Rounds m q (m * 2 ^ q) := by
  have hm : (m : ℚ) * 2 ^ q / 2 ^ q = m := by field_simp
  refine Near.rounds ?_ fun _ _ => by rw [hm]
  rw [hm]
  exact ⟨by linarith, by linarith, fun _ => ⟨by linarith, by linarith⟩⟩

theorem Unsigned.rounded {x : Float} (h : Unsigned x) : Rounded x (magnitude x) :=
  ⟨h, rounds_self⟩

theorem Unsigned.unpack {x : Float} (h : Unsigned x) :
    x.toModel.unpack =
      ofParts .positive (Binary.ofFloat x).significand (Binary.ofFloat x).exponent := by
  rw [unpack_eq_ofParts h.finite, h.positive]
  rfl

theorem magnitude_nonneg (x : Float) : 0 ≤ magnitude x := by
  unfold magnitude
  positivity

theorem magnitude_le {x : Float} {p : Int} (h : (Binary.ofFloat x).exponent ≤ p) :
    magnitude x ≤ (2 ^ 53 - 1) * 2 ^ p := by
  have hbounded : (Binary.ofFloat x).significand + 1 ≤ 2 * Binary.leadingBit :=
    (inFormat_ofFloat x).bounded
  have hbounded' : ((Binary.ofFloat x).significand : ℚ) + 1 ≤ 2 * Binary.leadingBit := by
    exact_mod_cast hbounded
  have hlead : (2 * Binary.leadingBit : ℚ) = 2 ^ 53 := by norm_num [Binary.leadingBit]
  have hpow : (2 : ℚ) ^ (Binary.ofFloat x).exponent ≤ 2 ^ p :=
    zpow_le_zpow_right₀ (by norm_num) h
  exact mul_le_mul (by linarith) hpow (by positivity) (by norm_num)

theorem le_magnitude {x : Float} {p : Int} (hp : Binary.leastExponent ≤ p)
    (h : p < (Binary.ofFloat x).exponent) : 2 ^ 53 * 2 ^ p ≤ magnitude x := by
  have hnormal : Binary.leadingBit ≤ (Binary.ofFloat x).significand :=
    (inFormat_ofFloat x).normal.resolve_left (by omega)
  have hnormal' : (Binary.leadingBit : ℚ) ≤ (Binary.ofFloat x).significand := by
    exact_mod_cast hnormal
  have hlead : (Binary.leadingBit : ℚ) = 2 ^ 52 := by norm_num [Binary.leadingBit]
  have hpow : (2 : ℚ) ^ (p + 1) ≤ 2 ^ (Binary.ofFloat x).exponent :=
    zpow_le_zpow_right₀ (by norm_num) h
  rw [zpow_add_one₀ (by norm_num)] at hpow
  calc (2 : ℚ) ^ 53 * 2 ^ p = 2 ^ 52 * (2 ^ p * 2) := by ring
    _ ≤ magnitude x := mul_le_mul (by linarith) hpow (by positivity) (by positivity)

theorem rounded_pack {m : Nat} {q : Int} {r : ℚ} (h : InFormat m q) (hrounds : Rounds m q r)
    (hr : r < edge greatestExponent) : Rounded (.ofModel (.pack (ofParts .positive m q))) r := by
  have hq : q ≤ greatestExponent := by
    by_contra hlt
    exact absurd (edge_le h hrounds (by decide) (by omega)) (not_le.2 hr)
  have hparts : Binary.ofFloat (.ofModel (.pack (ofParts .positive m q))) = ⟨false, m, q⟩ :=
    ofFloat_pack false h hq
  refine ⟨⟨?_, ?_⟩, ?_⟩
  · rw [isFinite_iff, hparts]
    exact hq
  · rw [hparts]
  · rw [hparts]
    exact hrounds

theorem rounded_roundWithAccuracy {m : Nat} {e : Int} {accuracy : Accuracy} {x : ℚ}
    (h : Cuts (.ofMantissaAndAccuracy m accuracy) x)
    (he : e ≤ Format.binary64.targetExponent (totalExponent m e))
    (hx : x * 2 ^ e < edge greatestExponent) :
    Rounded (.ofModel (.pack (roundWithAccuracy Format.binary64 .positive m e accuracy)))
      (x * 2 ^ e) := by
  obtain ⟨m', q', hround, hformat, hrounds⟩ := rounds_roundWithAccuracy (s := .positive) h he
  rw [hround]
  exact rounded_pack hformat hrounds hx

theorem totalExponent_eq (m : Nat) (e : Int) : totalExponent m e = m.log2 + 1 + e := rfl

theorem le_targetExponent {m : Nat} {e : Int}
    (h : Binary.leadingBit ≤ m ∨ e ≤ Binary.leastExponent) :
    e ≤ Format.binary64.targetExponent (totalExponent m e) := by
  rw [targetExponent_eq]
  rcases h with hm | he
  · have hlead : Binary.leadingBit = 2 ^ 52 := by norm_num [Binary.leadingBit]
    have hlog : 52 ≤ m.log2 := (Nat.le_log2 (by rw [hlead] at hm; omega)).2 (hlead ▸ hm)
    omega
  · exact he.trans (le_max_right _ _)

theorem log2_shiftLeft {m : Nat} (hm : m ≠ 0) (k : Nat) : (m <<< k).log2 = m.log2 + k := by
  rw [Nat.log2_eq_iff (by simpa [Nat.shiftLeft_eq] using hm), Nat.shiftLeft_eq, add_right_comm,
    pow_add _ _ k, pow_add _ _ k]
  exact ⟨Nat.mul_le_mul_right _ (Nat.log2_self_le hm),
    Nat.mul_lt_mul_of_pos_right Nat.lt_log2_self (by positivity)⟩

theorem rounded_zero : Rounded (.ofModel (.pack (.zero .positive))) 0 := by
  have hzero : Rounds 0 Binary.leastExponent 0 := by
    simpa using rounds_self (m := 0) (q := Binary.leastExponent)
  have hedge := pow_le_edge (k := 0) (by omega)
  exact rounded_pack ⟨by decide, le_refl _, .inl rfl⟩ hzero (lt_of_lt_of_le (by norm_num) hedge)

theorem rounded_round {m : Nat} {e : Int} (hm : 0 < m) (hx : m * 2 ^ e < edge greatestExponent) :
    Rounded (.ofModel (.pack (UnpackedFloat.round Format.binary64 .positive m e))) (m * 2 ^ e) := by
  obtain ⟨t, ht⟩ : ∃ t, Format.binary64.targetExponent (totalExponent m e) = t := ⟨_, rfl⟩
  obtain ⟨k, hk⟩ : ∃ k, (e - t).toNat = k := ⟨_, rfl⟩
  have hvalue : ((m <<< k : Nat) : ℚ) * 2 ^ (e - k) = m * 2 ^ e := by
    rw [Nat.shiftLeft_eq, zpow_sub₀ (by norm_num), zpow_natCast]
    push_cast
    field_simp
  have htotal : totalExponent (m <<< k) (e - k) = totalExponent m e := by
    rw [totalExponent_eq, totalExponent_eq, log2_shiftLeft hm.ne']
    push_cast
    omega
  simp only [UnpackedFloat.round, ht, decreaseExponent, hk]
  rw [← hvalue] at hx ⊢
  exact rounded_roundWithAccuracy (cuts_exact _) (by rw [htotal, ht]; omega) hx

theorem rounded_normalize {m : Nat} {e : Int} (hx : m * 2 ^ e < edge greatestExponent) :
    Rounded (.ofModel (.pack (UnpackedFloat.normalize Format.binary64 m e .positive)))
      (m * 2 ^ e) := by
  rcases Nat.eq_zero_or_pos m with rfl | hm
  · have hzero : ((0 : Nat) : ℚ) * 2 ^ e = 0 := by simp
    rw [hzero]
    exact rounded_zero
  · have hcompare : compare (m : Int) 0 = .gt := compare_gt_iff_gt.2 (by omega)
    simp only [UnpackedFloat.normalize, hcompare]
    exact rounded_round hm hx

theorem ofParts_zero (s : Sign) (q : Int) : ofParts s 0 q = .zero s := rfl

theorem ofParts_pos {m : Nat} (hm : 0 < m) (s : Sign) (q : Int) :
    ofParts s m q = .finite s m q hm :=
  dif_neg hm.ne'

theorem shiftLeft_mul_zpow {m : Nat} {q t : Int} (h : t ≤ q) :
    ((m <<< (q - t).toNat : Nat) : ℚ) * 2 ^ t = m * 2 ^ q := by
  have hq : q = t + (q - t).toNat := by omega
  rw [Nat.shiftLeft_eq, Nat.cast_mul, Nat.cast_pow, mul_assoc]
  conv_rhs => rw [hq, zpow_add₀ (by norm_num), zpow_natCast, mul_comm (2 ^ t)]
  norm_num

section Parts

variable {m m' : Nat} {q q' : Int}

theorem zero_add_ofParts (q : Int) :
    UnpackedFloat.add Format.binary64 (ofParts .positive 0 q) (ofParts .positive m' q') =
      ofParts .positive m' q' := by
  by_cases hm' : m' = 0
  · rw [ofParts_zero, hm', ofParts_zero]
    rfl
  · rw [ofParts_zero, ofParts_pos (Nat.pos_of_ne_zero hm')]
    rfl

theorem add_ofParts_zero (hm : 0 < m) (q' : Int) :
    UnpackedFloat.add Format.binary64 (ofParts .positive m q) (ofParts .positive 0 q') =
      ofParts .positive m q := by
  rw [ofParts_zero, ofParts_pos hm]
  rfl

theorem rounded_add_ofParts (hformat : InFormat m q) (hformat' : InFormat m' q')
    (h : m * 2 ^ q + m' * 2 ^ q' < edge greatestExponent) :
    Rounded (.ofModel (.pack (UnpackedFloat.add Format.binary64 (ofParts .positive m q)
      (ofParts .positive m' q')))) (m * 2 ^ q + m' * 2 ^ q') := by
  rcases Nat.eq_zero_or_pos m with rfl | hm
  · rw [Nat.cast_zero, zero_mul, zero_add] at h ⊢
    rw [zero_add_ofParts]
    exact rounded_pack hformat' rounds_self h
  · rcases Nat.eq_zero_or_pos m' with rfl | hm'
    · rw [Nat.cast_zero, zero_mul, add_zero] at h ⊢
      rw [add_ofParts_zero hm]
      exact rounded_pack hformat rounds_self h
    · -- both are brought to the smaller exponent, where their significands add up
      rw [ofParts_pos hm, ofParts_pos hm', ← shiftLeft_mul_zpow (min_le_left q q'),
        ← shiftLeft_mul_zpow (min_le_right q q'), ← add_mul, ← Nat.cast_add] at *
      exact rounded_normalize h

theorem rounded_mul_ofParts (hdigits : 0 < m → 0 < m' →
      Binary.leadingBit ≤ m * m' ∨ q + q' ≤ Binary.leastExponent)
    (h : (m * 2 ^ q : ℚ) * (m' * 2 ^ q') < edge greatestExponent) :
    Rounded (.ofModel (.pack (UnpackedFloat.mul Format.binary64 (ofParts .positive m q)
      (ofParts .positive m' q')))) (m * 2 ^ q * (m' * 2 ^ q')) := by
  rcases Nat.eq_zero_or_pos m with rfl | hm
  · have hresult : UnpackedFloat.mul Format.binary64 (ofParts .positive 0 q)
        (ofParts .positive m' q') = .zero .positive := by
      by_cases hm' : m' = 0
      · rw [ofParts_zero, hm', ofParts_zero]
        rfl
      · rw [ofParts_zero, ofParts_pos (Nat.pos_of_ne_zero hm')]
        rfl
    simpa [hresult] using rounded_zero
  · rcases Nat.eq_zero_or_pos m' with rfl | hm'
    · have hresult : UnpackedFloat.mul Format.binary64 (ofParts .positive m q)
          (ofParts .positive 0 q') = .zero .positive := by
        rw [ofParts_pos hm]
        rfl
      simpa [hresult] using rounded_zero
    · have hvalue : (m * 2 ^ q : ℚ) * (m' * 2 ^ q') = (m * m' : Nat) * 2 ^ (q + q') := by
        rw [zpow_add₀ (by norm_num)]
        push_cast
        ring
      rw [hvalue] at h ⊢
      rw [ofParts_pos hm, ofParts_pos hm']
      exact rounded_roundWithAccuracy (cuts_exact _) (le_targetExponent (hdigits hm hm')) h

theorem le_log2_div {n d : Nat} {k : Nat} (hd : 0 < d) (h : d.log2 + 1 + k ≤ n.log2) :
    2 ^ k ≤ n / d := by
  rw [Nat.le_div_iff_mul_le hd]
  have hn : n ≠ 0 := by
    rintro rfl
    simp at h
  calc 2 ^ k * d ≤ 2 ^ k * 2 ^ (d.log2 + 1) := Nat.mul_le_mul_left _ Nat.lt_log2_self.le
    _ = 2 ^ (d.log2 + 1 + k) := by rw [← pow_add, add_comm]
    _ ≤ 2 ^ n.log2 := Nat.pow_le_pow_right (by omega) h
    _ ≤ n := Nat.log2_self_le hn

theorem leadingBit_le_quotient {t : Int} {k : Nat} (hm : 0 < m) (hm' : 0 < m')
    (ht : min (q - q') (Format.binary64.targetExponent
      (totalExponent m q - totalExponent m' q')) = t) (hk : (q - q' - t).toNat = k) :
    Binary.leadingBit ≤ (m <<< k) / m' ∨ t ≤ Binary.leastExponent := by
  have htarget : Format.binary64.targetExponent (totalExponent m q - totalExponent m' q') =
    max ((m.log2 : Int) + 1 + q - (m'.log2 + 1 + q') - 53) Binary.leastExponent := rfl
  have hlead : Binary.leadingBit = 2 ^ 52 := by norm_num [Binary.leadingBit]
  rw [htarget] at ht
  rcases Int.lt_or_le Binary.leastExponent t with hlt | hle
  · rw [hlead]
    exact .inl (le_log2_div hm' (by rw [log2_shiftLeft hm.ne']; omega))
  · exact .inr hle

theorem rounded_div_ofParts (hm' : 0 < m') (h : m * 2 ^ q / (m' * 2 ^ q') < edge greatestExponent) :
    Rounded (.ofModel (.pack (UnpackedFloat.div Format.binary64 (ofParts .positive m q)
      (ofParts .positive m' q')))) (m * 2 ^ q / (m' * 2 ^ q')) := by
  rcases Nat.eq_zero_or_pos m with rfl | hm
  · have hresult : UnpackedFloat.div Format.binary64 (ofParts .positive 0 q)
        (ofParts .positive m' q') = .zero .positive := by
      rw [ofParts_zero, ofParts_pos hm']
      rfl
    simpa [hresult] using rounded_zero
  · obtain ⟨t, ht⟩ : ∃ t, min (q - q') (Format.binary64.targetExponent
      (totalExponent m q - totalExponent m' q')) = t := ⟨_, rfl⟩
    obtain ⟨k, hk⟩ : ∃ k, (q - q' - t).toNat = k := ⟨_, rfl⟩
    have hvalue : ((m <<< k : Nat) : ℚ) / m' * 2 ^ t = m * 2 ^ q / (m' * 2 ^ q') := by
      have hshift := shiftLeft_mul_zpow (m := m) (q := q - q') (t := t) (by omega)
      rw [hk] at hshift
      rw [div_mul_eq_mul_div, hshift, zpow_sub₀ (by norm_num)]
      field_simp
    have hdigits := leadingBit_le_quotient hm hm' ht hk
    rw [← hvalue] at h ⊢
    have hquotient : UnpackedFloat.div Format.binary64 (ofParts .positive m q)
        (ofParts .positive m' q') = roundWithAccuracy Format.binary64 .positive ((m <<< k) / m') t
          (accuracyOfFraction ((m <<< k) % m') m') := by
      subst ht hk
      rw [ofParts_pos hm, ofParts_pos hm']
      rfl
    rw [hquotient]
    exact rounded_roundWithAccuracy (cuts_fraction hm') (le_targetExponent hdigits) h

end Parts

section Operations

variable {x y : Float}

theorem rounded_add (hx : Unsigned x) (hy : Unsigned y)
    (h : magnitude x + magnitude y < edge greatestExponent) :
    Rounded (x + y) (magnitude x + magnitude y) := by
  change Rounded (.ofModel (.pack (UnpackedFloat.add _ x.toModel.unpack y.toModel.unpack))) _
  rw [hx.unpack, hy.unpack]
  exact rounded_add_ofParts (inFormat_ofFloat x) (inFormat_ofFloat y) h

theorem rounded_mul (hx : Unsigned x) (hy : Unsigned y)
    (h : magnitude x * magnitude y < edge greatestExponent) :
    Rounded (x * y) (magnitude x * magnitude y) := by
  change Rounded (.ofModel (.pack (UnpackedFloat.mul _ x.toModel.unpack y.toModel.unpack))) _
  rw [hx.unpack, hy.unpack]
  refine rounded_mul_ofParts (fun hm hm' => ?_) h
  rcases (inFormat_ofFloat x).normal with hq | hlead
  · rcases (inFormat_ofFloat y).normal with hq' | hlead'
    · have hleast : Binary.leastExponent = -1074 := rfl
      exact .inr (by omega)
    · exact .inl (hlead'.trans (Nat.le_mul_of_pos_left _ hm))
  · exact .inl (hlead.trans (Nat.le_mul_of_pos_right _ hm'))

theorem rounded_div (hx : Unsigned x) (hy : Unsigned y) (hpos : 0 < magnitude y)
    (h : magnitude x / magnitude y < edge greatestExponent) :
    Rounded (x / y) (magnitude x / magnitude y) := by
  change Rounded (.ofModel (.pack (UnpackedFloat.div _ x.toModel.unpack y.toModel.unpack))) _
  rw [hx.unpack, hy.unpack]
  refine rounded_div_ofParts (Nat.pos_of_ne_zero fun hzero => hpos.ne' ?_) h
  rw [magnitude, hzero]
  simp

end Operations

theorem Rounded.magnitude_eq {x : Float} {m : Nat} {q : Int} (h : Rounded x (m * 2 ^ q))
    (hformat : InFormat m q) : magnitude x = m * 2 ^ q := by
  obtain ⟨hsig, hexp⟩ := eq_of_rounds (inFormat_ofFloat x) hformat h.rounds rounds_self
  rw [magnitude, hsig, hexp]

theorem exists_inFormat {n : Nat} (h : n ≤ 2 * Binary.leadingBit) :
    ∃ m q, InFormat m q ∧ (n : ℚ) = m * 2 ^ q := by
  have hlead : Binary.leadingBit = 2 ^ 52 := by norm_num [Binary.leadingBit]
  rcases Nat.eq_zero_or_pos n with rfl | hn
  · exact ⟨0, Binary.leastExponent, ⟨by decide, le_refl _, .inl rfl⟩, by simp⟩
  · rcases Nat.lt_or_eq_of_le h with hlt | rfl
    · have hlog : n.log2 < 53 := (Nat.log2_lt hn.ne').2 (by omega)
      have hshift := shiftLeft_mul_zpow (m := n) (q := 0) (t := n.log2 - 52) (by omega)
      have hk : ((0 : Int) - (n.log2 - 52)).toNat = 52 - n.log2 := by omega
      rw [hk, zpow_zero, mul_one] at hshift
      have hlog' : (n <<< (52 - n.log2)).log2 = 52 := by
        rw [log2_shiftLeft hn.ne']
        omega
      have hne : n <<< (52 - n.log2) ≠ 0 := by
        intro hzero
        rw [hzero] at hlog'
        simp at hlog'
      refine ⟨_, _, ⟨?_, ?_, .inr ?_⟩, hshift.symm⟩
      · rw [hlead, mul_comm, ← pow_succ]
        exact (Nat.log2_lt hne).1 (by omega)
      · have hleast : Binary.leastExponent = -1074 := rfl
        omega
      · rw [hlead]
        exact (Nat.le_log2 hne).1 hlog'.ge
    · refine ⟨Binary.leadingBit, 1, ⟨by decide, by decide, .inr (le_refl _)⟩, ?_⟩
      push_cast
      ring

theorem Rounded.magnitude_natCast {x : Float} {n : Nat} (h : Rounded x n)
    (hn : n ≤ 2 * Binary.leadingBit) : magnitude x = n := by
  obtain ⟨m, q, hformat, hvalue⟩ := exists_inFormat hn
  rw [hvalue] at h ⊢
  exact h.magnitude_eq hformat

theorem rounded_toFloat {n : Nat} (hn : n < 0x10000000000000000) :
    Rounded n.toUInt64.toFloat n := by
  have hnat : n.toUInt64.toNat = n := Nat.mod_eq_of_lt hn
  have hlt : (n : ℚ) < 2 ^ 64 := by exact_mod_cast hn
  have hedge := hlt.trans_le (pow_le_edge (by omega))
  have h := rounded_normalize (m := n) (e := 0) (by simpa using hedge)
  rw [zpow_zero, mul_one] at h
  change Rounded (.ofModel (.pack (UnpackedFloat.normalize Format.binary64 n.toUInt64.toNat 0
    .positive))) n
  rwa [hnat]

theorem parts_powersOfTen (e : Fin Float.exactlyRepresentablePowersOfTen.size) :
    let b := Binary.ofFloat Float.exactlyRepresentablePowersOfTen[e]
    b.negative = false ∧ -52 ≤ b.exponent ∧ b.exponent ≤ greatestExponent ∧
      b.significand * 2 ^ (b.exponent + 52).toNat = 10 ^ e.val * 2 ^ 52 := by
  revert e
  decide +kernel

theorem rounded_powersOfTen {e : Nat} (he : e < Float.exactlyRepresentablePowersOfTen.size) :
    Rounded Float.exactlyRepresentablePowersOfTen[e] (10 ^ e) ∧
      magnitude Float.exactlyRepresentablePowersOfTen[e] = 10 ^ e := by
  obtain ⟨x, hx⟩ : ∃ x, Float.exactlyRepresentablePowersOfTen[e] = x := ⟨_, rfl⟩
  obtain ⟨hpositive, hlow, hhigh, hvalue⟩ := parts_powersOfTen ⟨e, he⟩
  dsimp only [Fin.getElem_fin] at hpositive hlow hhigh hvalue
  rw [hx] at hpositive hlow hhigh hvalue ⊢
  have hmagnitude : magnitude x = 10 ^ e := by
    have hexp : (Binary.ofFloat x).exponent =
        (((Binary.ofFloat x).exponent + 52).toNat : Int) - 52 := by
      omega
    have hvalue' : ((Binary.ofFloat x).significand : ℚ) *
        2 ^ ((Binary.ofFloat x).exponent + 52).toNat = 10 ^ e * 2 ^ 52 := by
      exact_mod_cast hvalue
    rw [magnitude, hexp, zpow_sub₀ (by norm_num), zpow_natCast, ← mul_div_assoc, hvalue']
    norm_num
  rw [← hmagnitude]
  exact ⟨Unsigned.rounded ⟨(isFinite_iff x).2 hhigh, hpositive⟩, rfl⟩

/-- Where a double does not hold both factors, the product is taken as a whole. -/
theorem rounded_ofScientific_product {n e : Nat} (he : e ≤ 2048)
    (h : (n * 10 ^ e : ℚ) < edge greatestExponent) :
    Rounded (.ofModel (.pack (UnpackedFloat.ofScientific Format.binary64 n (e : Int))))
      (n * 10 ^ e) := by
  rcases Nat.eq_zero_or_pos n with rfl | hn
  · have hresult : UnpackedFloat.ofScientific Format.binary64 0 (e : Int) = .zero .positive := by
      rw [UnpackedFloat.ofScientific, dif_pos rfl]
    rw [hresult, Nat.cast_zero, zero_mul]
    exact rounded_zero
  · have hm : 0 < n <<< 53 := by
      rw [Nat.shiftLeft_eq]
      positivity
    have hvalue : ((n <<< 53 : Nat) : ℚ) * 2 ^ (-53 : Int) * ((10 ^ e : Nat) * 2 ^ (0 : Int)) =
        n * 10 ^ e := by
      have hshift := shiftLeft_mul_zpow (m := n) (q := 0) (t := -53) (by omega)
      change ((n <<< 53 : Nat) : ℚ) * _ = _ at hshift
      rw [hshift]
      push_cast
      ring
    have hdigits : Binary.leadingBit ≤ (n <<< 53) * 10 ^ e := by
      have hlead : Binary.leadingBit ≤ n <<< 53 := by
        rw [Nat.shiftLeft_eq, Binary.leadingBit]
        omega
      exact hlead.trans (Nat.le_mul_of_pos_right _ (by positivity))
    have hround : Rounded (.ofModel (.pack (UnpackedFloat.mul Format.binary64
        (ofParts .positive (n <<< 53) (-53)) (ofParts .positive (10 ^ e) 0))))
        (((n <<< 53 : Nat) : ℚ) * 2 ^ (-53 : Int) * ((10 ^ e : Nat) * 2 ^ (0 : Int))) :=
      rounded_mul_ofParts (fun _ _ => .inl hdigits) (by rwa [hvalue])
    have hbits : (2 : Int) ^ Format.binary64.exponentBits = 2048 := rfl
    rw [hvalue, ofParts_pos hm, ofParts_pos (by positivity)] at hround
    rw [UnpackedFloat.ofScientific, dif_neg hn.ne', if_neg (by omega), if_neg (by omega),
      if_pos (by omega)]
    exact hround

/-- A decimal without a fraction is read as the double that it rounds to. -/
theorem rounded_ofScientific {n e : Nat} (he : e ≤ 2048)
    (h : (n * 10 ^ e : ℚ) < edge greatestExponent) :
    Rounded (Float.ofScientific n false e) (n * 10 ^ e) := by
  unfold Float.ofScientific
  split
  · rename_i hexact
    obtain ⟨hpower, hpowerEq⟩ := rounded_powersOfTen (e := e)
      (by simp only [Float.exactlyRepresentablePowersOfTen, List.size_toArray, List.length_cons,
        List.length_nil]; omega)
    have hn := rounded_toFloat (n := n) (by omega)
    have hnEq := hn.magnitude_natCast (by
      have hlead : Binary.leadingBit = 2 ^ 52 := by norm_num [Binary.leadingBit]
      omega)
    rw [← hpowerEq, ← hnEq] at h ⊢
    exact rounded_mul hn.toUnsigned hpower.toUnsigned h
  · exact rounded_ofScientific_product he h

theorem rounded_ofNat {n : Nat} (h : n < edge greatestExponent) : Rounded (Float.ofNat n) n := by
  change Rounded (Float.ofScientific n false 0) n
  simpa using rounded_ofScientific (n := n) (e := 0) (by omega) (by simpa using h)

theorem Rounded.near {x : Float} {r : ℚ} {p : Int} (h : Rounded x r)
    (hp : Binary.leastExponent ≤ p) (hr : r < 2 * Binary.leadingBit * 2 ^ p) :
    |magnitude x - r| ≤ 2 ^ p / 2 :=
  h.rounds.near (inFormat_ofFloat x) hp hr

theorem Unsigned.magnitude_lt {x : Float} (h : Unsigned x) : magnitude x < edge greatestExponent :=
  (lt_edge (inFormat_ofFloat x) rounds_self).trans_le (edge_mono ((isFinite_iff x).1 h.finite))

theorem Rounded.normal {x : Float} {r : ℚ} (h : Rounded x r) (hr : 1 ≤ r) :
    -53 < (Binary.ofFloat x).exponent := by
  refine (edge_le_iff (inFormat_ofFloat x) h.rounds (by decide)).1 (LE.le.trans ?_ hr)
  norm_num [edge, quarterUnit, Binary.leadingBit]

theorem Rounded.one_le {x : Float} {r : ℚ} (h : Rounded x r) (hr : 1 ≤ r) : 1 ≤ magnitude x := by
  refine (le_of_eq ?_).trans (le_magnitude (by decide) (h.normal hr))
  norm_num

theorem Rounded.magnitude_mul_le {x : Float} {r : ℚ} (h : Rounded x r) (hr : 1 ≤ r) :
    magnitude x * 2 ^ 53 ≤ r * (2 ^ 53 + 1) := by
  have hnormal := h.normal hr
  have hleast : Binary.leastExponent = -1074 := rfl
  have hfoot : (Binary.ofFloat x).exponent ≠ Binary.leastExponent := by omega
  have hformat := (inFormat_ofFloat x).normal.resolve_left hfoot
  have hlow := h.rounds.low
  have hu := quarterUnit_pos (Binary.ofFloat x).exponent
  have hlead : (Binary.leadingBit : ℚ) = 2 ^ 52 := by norm_num [Binary.leadingBit]
  rw [magnitude, ← four_mul_quarterUnit]
  generalize (Binary.ofFloat x).significand = m at *
  generalize (Binary.ofFloat x).exponent = q at *
  rcases Nat.lt_or_eq_of_le hformat with hlt | rfl
  · rw [reach_of_ne (by omega)] at hlow
    have hm : (Binary.leadingBit : ℚ) + 1 ≤ m := by exact_mod_cast hlt
    rw [hlead] at hm
    have hmu := mul_le_mul_of_nonneg_right hm hu.le
    push_cast at hlow
    linarith
  · rw [reach_leadingBit hfoot] at hlow
    rw [hlead] at hlow ⊢
    push_cast at hlow
    linarith

end Decimal

end ReplyCache
