import ReplyCache.Proofs.Json.Value

namespace ReplyCache

namespace Decimal

variable {m n : Nat} {q : Int}

theorem four_mul_quarter_of_whole (h : (m * 2 ^ q : ℚ) = n) :
    4 * m * quarter q 0 = n * gridStep q 0 := by
  have hscale := quarter_mul_zpow q 0
  rw [zpow_zero, mul_one] at hscale
  have heq : (4 * m * quarter q 0 : ℚ) = n * gridStep q 0 := by
    rw [hscale, ← h, ← four_mul_quarterUnit]
    ring
  exact_mod_cast heq

theorem onGrid_zero_ne_none (hm : 0 < m) (h : (m * 2 ^ q : ℚ) = n) : onGrid m q 0 ≠ none := by
  have hwhole := four_mul_quarter_of_whole h
  have hquarter := quarter_pos q 0
  have hbelow : below m q 0 = n := by
    rw [below, hwhole, Nat.mul_div_cancel _ (gridStep_pos q 0)]
  have hreach : 1 ≤ reach m q := by
    unfold reach
    split <;> omega
  refine onGrid_ne_none (.inl ?_)
  rw [hbelow]
  refine roundsTo_of_lt ?_ ?_
  · rw [← hwhole]
    exact Nat.mul_lt_mul_of_pos_right (by omega) hquarter
  · rw [← hwhole]
    exact Nat.mul_lt_mul_of_pos_right (by omega) hquarter

theorem digitCount_mono {a b : Nat} (ha : 0 < a) (h : a ≤ b) : digitCount a ≤ digitCount b := by
  have hpow := ((pow_digitCount_le ha).trans h).trans_lt (lt_pow_digitCount b)
  have hlt := (Nat.pow_lt_pow_iff_right (by omega)).1 hpow
  omega

theorem firstPlace_nonneg (h : (1 : ℚ) ≤ m * 2 ^ q) : 0 ≤ firstPlace m q := by
  have hscale : ((m * Nat.pow 2 q.toNat : Nat) : ℚ) = m * 2 ^ q * (Nat.pow 2 (-q).toNat : Nat) := by
    simp only [Nat.pow_eq]
    push_cast
    rw [mul_assoc, zpow_mul_pow_toNat 2 (by norm_num)]
  have hle : Nat.pow 2 (-q).toNat ≤ m * Nat.pow 2 q.toNat := by
    have hleQ : ((Nat.pow 2 (-q).toNat : Nat) : ℚ) ≤ (m * Nat.pow 2 q.toNat : Nat) := by
      rw [hscale]
      exact le_mul_of_one_le_left (Nat.cast_nonneg _) h
    exact_mod_cast hleQ
  have hcount : digitCount (Nat.pow 2 (-q).toNat) ≤ digitCount (m * Nat.pow 2 q.toNat) :=
    digitCount_mono (Nat.two_pow_pos _) hle
  unfold firstPlace
  dsimp only
  generalize m * Nat.pow 2 q.toNat = num, Nat.pow 2 (-q).toNat = den at *
  split
  · omega
  · rename_i hgt
    by_contra hneg
    have hguess : (digitCount num : Int) - digitCount den = 0 := by omega
    rw [hguess] at hgt
    exact hgt (by simpa using hle)

theorem le_exponent_shortest {k : Int} (h : onGrid m q k ≠ none) (hk : k ≤ firstPlace m q)
    (hfine : firstPlace m q < k + mostDigits) : k ≤ (shortest m q).2 := by
  have hmem : k ∈ (List.range mostDigits).map fun p : Nat => firstPlace m q - (p : Int) :=
    List.mem_map.2 ⟨(firstPlace m q - k).toNat, List.mem_range.2 (by omega), by omega⟩
  have hfalling : ((List.range mostDigits).map fun p : Nat => firstPlace m q - (p : Int)).Pairwise
      (· > ·) := by
    refine List.pairwise_map.2 (List.pairwise_lt_range.imp fun hlt => ?_)
    omega
  unfold shortest
  dsimp only
  cases hfound : ((List.range mostDigits).map fun p : Nat => firstPlace m q - (p : Int)).findSome?
      fun k => (onGrid m q k).map (·, k) with
  | none =>
      have hnone := List.findSome?_eq_none_iff.1 hfound k hmem
      exact (h (Option.map_eq_none_iff.1 hnone)).elim
  | some e =>
      obtain ⟨before, a, after, hgrids, ha, hbefore⟩ := List.findSome?_eq_some_iff.1 hfound
      obtain ⟨c, -, rfl⟩ := Option.map_eq_some_iff.1 ha
      rw [hgrids] at hmem hfalling
      rcases List.mem_append.1 hmem with hk | hk
      · exact (h (Option.map_eq_none_iff.1 (hbefore k hk))).elim
      · rcases List.mem_cons.1 hk with rfl | hk
        · exact le_refl _
        · have hfalling' := (List.pairwise_append.1 hfalling).2.1
          exact le_of_lt ((List.pairwise_cons.1 hfalling').1 k hk)

theorem IsDouble.exponent_le_of_lt (hd : IsDouble m q) (h : (m * 2 ^ q : ℚ) = n)
    (hn : n < 2 ^ 49) : q ≤ -4 := by
  by_contra hgt
  have hleast : Binary.leastExponent = -1074 := rfl
  have hnormal : Binary.leadingBit ≤ m := hd.normal.resolve_left (by omega)
  have hnormal' : (Binary.leadingBit : ℚ) ≤ m := by exact_mod_cast hnormal
  have hpow : (2 : ℚ) ^ (-3 : Int) ≤ 2 ^ q := zpow_le_zpow_right₀ (by norm_num) (by omega)
  have hmul := mul_le_mul hnormal' hpow (by positivity) (by positivity)
  have hlt : (n : ℚ) < 2 ^ 49 := by exact_mod_cast hn
  rw [h] at hmul
  norm_num [Binary.leadingBit] at hmul hlt
  linarith

/-- Doubles below `2 ^ 49` lie so close that there is one whole number at most near each. -/
theorem eq_of_rounds_of_whole (hd : IsDouble m q) (h : (m * 2 ^ q : ℚ) = n) (hn : n < 2 ^ 49)
    {a : Nat} (hrounds : Rounds m q a) : a = n := by
  have hnear : quarterUnit q ≤ 2 ^ (-6 : Int) :=
    zpow_le_zpow_right₀ (by norm_num) (by have := hd.exponent_le_of_lt h hn; omega)
  have hlow := hrounds.low
  have hhigh := hrounds.high
  have hreach : (reach m q : ℚ) ≤ 2 := by exact_mod_cast reach_le m q
  have hsmall := mul_le_mul hreach hnear (quarterUnit_pos q).le (by norm_num)
  have hfour : 4 * m * quarterUnit q = n := by
    rw [← h, ← four_mul_quarterUnit]
    ring
  norm_num at hnear hsmall
  refine Nat.le_antisymm (Nat.le_of_lt_succ ?_) (Nat.le_of_lt_succ ?_)
  · have hlt : (a : ℚ) < (n + 1 : Nat) := by
      push_cast
      linarith
    exact_mod_cast hlt
  · have hlt : (n : ℚ) < (a + 1 : Nat) := by
      push_cast
      linarith
    exact_mod_cast hlt

theorem shortest_of_whole (hd : IsDouble m q) (h : (m * 2 ^ q : ℚ) = n) (hn : n < 2 ^ 49) :
    0 ≤ (shortest m q).2 ∧ (shortest m q).1 * 10 ^ (shortest m q).2.toNat = n := by
  have hpos : (1 : ℚ) ≤ n := by
    have hnpos : (0 : ℚ) < n := by
      have hm : (0 : ℚ) < m := by exact_mod_cast hd.pos
      rw [← h]
      positivity
    exact_mod_cast hnpos
  have hfirst := zpow_firstPlace_le hd.pos q
  have hnonneg := firstPlace_nonneg (h ▸ hpos)
  have hk : 0 ≤ (shortest m q).2 := by
    refine le_exponent_shortest (onGrid_zero_ne_none hd.pos h) hnonneg ?_
    rw [h] at hfirst
    have hpow : (2 : ℚ) ^ 49 ≤ 10 ^ (17 : Int) := by norm_num
    have hlt : (10 : ℚ) ^ firstPlace m q < 10 ^ (17 : Int) :=
      hfirst.trans_lt (lt_of_lt_of_le (by exact_mod_cast hn) hpow)
    exact (zpow_lt_zpow_iff_right₀ (by norm_num)).1 hlt
  have hvalue : value (shortest m q).1 (shortest m q).2 =
      ((shortest m q).1 * 10 ^ (shortest m q).2.toNat : Nat) := by
    rw [value, ← Int.toNat_of_nonneg hk, zpow_natCast, Int.toNat_natCast]
    push_cast
    rfl
  have hrounds := roundsTo_bounds hd.pos (roundsTo_shortest hd)
  rw [hvalue] at hrounds
  exact ⟨hk, eq_of_rounds_of_whole hd h hn hrounds⟩

theorem digits_of_whole {c n : Nat} {k : Int} (hc : 0 < c) (hk : 0 ≤ k)
    (h : c * 10 ^ k.toNat = n) (hn : n < 2 ^ 49) :
    0 ≤ (digits c k).2 ∧ (digits c k).2 ≤ 15 ∧
      (digits c k).1.length ≤ (digits c k).2.toNat + 1 := by
  have hpos : 0 < digitCount c := Nat.length_toDigits_pos
  have hplaces : (digits c k).2 = k + digitCount c - 1 := rfl
  have hlength : (digits c k).1.length ≤ digitCount c := by
    have hdrop := (List.dropWhile_sublist (· = '0') (l := (Nat.toDigits 10 c).reverse)).length_le
    rw [List.length_reverse] at hdrop
    exact (List.length_reverse ..).trans_le hdrop
  have hpow : 10 ^ (digitCount c - 1 + k.toNat) < 10 ^ 15 := by
    rw [pow_add]
    calc 10 ^ (digitCount c - 1) * 10 ^ k.toNat ≤ c * 10 ^ k.toNat :=
          Nat.mul_le_mul_right _ (pow_digitCount_le hc)
      _ = n := h
      _ < 10 ^ 15 := hn.trans (by norm_num)
  have hlt := (Nat.pow_lt_pow_iff_right (by omega)).1 hpow
  rw [hplaces]
  omega

end Decimal

namespace Literal

open Decimal

theorem ofPositional_of_whole {ds : List Char} {e : Int} (he : 0 ≤ e)
    (h : ds.length ≤ e.toNat + 1) (negative : Bool) :
    ∃ whole, ofPositional negative ds e = ⟨negative, whole, ['0'], none⟩ := by
  have hdrop : ds.drop (e.toNat + 1) = [] := List.drop_eq_nil_of_le h
  refine ⟨ds.take (e.toNat + 1) ++ List.replicate (e.toNat + 1 - ds.length) '0', ?_⟩
  rw [ofPositional, if_neg (not_lt.2 he)]
  simp [hdrop]

theorem magnitude_whole (negative : Bool) (whole : List Char) :
    magnitude ⟨negative, whole, ['0'], none⟩ = Nat.ofDigitChars 10 whole 0 := by
  have hdigits : Nat.ofDigitChars 10 (whole ++ ['0']) 0 = 10 * Nat.ofDigitChars 10 whole 0 := by
    rw [Nat.ofDigitChars_append]
    rfl
  rw [magnitude, hdigits, value, shift]
  norm_num
  field_simp

theorem ofBinary_of_whole {b : Binary} {n : Nat}
    (hd : 0 < b.significand → IsDouble b.significand b.exponent)
    (h : (b.significand * 2 ^ b.exponent : ℚ) = n) (hn : n < 2 ^ 49) :
    ∃ whole, ofBinary b = ⟨b.negative, whole, ['0'], none⟩ ∧ Nat.ofDigitChars 10 whole 0 = n := by
  rcases Nat.eq_zero_or_pos b.significand with hzero | hpos
  · rw [hzero, Nat.cast_zero, zero_mul] at h
    obtain rfl : n = 0 := by exact_mod_cast h.symm
    exact ⟨['0'], if_pos hzero, rfl⟩
  · obtain ⟨hk, hvalue⟩ := shortest_of_whole (hd hpos) h hn
    have hc : 0 < (shortest b.significand b.exponent).1 := by
      refine Nat.pos_of_ne_zero fun hc => ?_
      rw [hc, Nat.zero_mul] at hvalue
      rw [← hvalue, Nat.cast_zero] at h
      have hm : (0 : ℚ) < b.significand := by exact_mod_cast hpos
      exact (mul_pos hm (by positivity)).ne' h
    obtain ⟨he, hplaces, hlength⟩ := digits_of_whole hc hk hvalue hn
    obtain ⟨whole, hwhole⟩ := ofPositional_of_whole he hlength b.negative
    have hliteral : ofBinary b = ⟨b.negative, whole, ['0'], none⟩ := by
      rw [ofBinary, if_neg hpos.ne']
      dsimp only
      rw [if_pos, hwhole]
      have hleast : Number.leastPositional ≤ (digits (shortest b.significand b.exponent).1
          (shortest b.significand b.exponent).2).2 := le_trans (by decide) he
      exact Bool.and_eq_true_iff.2 ⟨decide_eq_true hleast, decide_eq_true hplaces⟩
    refine ⟨whole, hliteral, ?_⟩
    have hmagnitude := magnitude_ofBinary hpos hc
    rw [hliteral, magnitude_whole, value, ← Int.toNat_of_nonneg hk, zpow_natCast] at hmagnitude
    rw [← hvalue]
    exact_mod_cast hmagnitude

/-- The zero behind the point makes ten times the number, which is still a double. -/
theorem value?_whole {whole : List Char} {n : Nat} (hwhole : Nat.ofDigitChars 10 whole 0 = n)
    (hn : n < 2 ^ 49) : value? ⟨false, whole, ['0'], none⟩ =
      Number.ofFloat? (Float.ofNat (10 * n) / powerOfTen 1) := by
  have hkeep : keep n ['0'] = (10 * n, []) := by
    have hdigits : Nat.ofDigitChars 10 ['0'] n = 10 * n := rfl
    rw [keep_of_lt (by rw [hdigits]; omega), hdigits]
  rw [value?_eq (by rw [hwhole]; omega) (.inl (List.cons_ne_nil _ _)), hwhole]
  dsimp only
  have hscale : scale? (10 * n) (-1) = some (Float.ofNat (10 * n) / powerOfTen 1) := rfl
  have hplaces : (⟨false, whole, ['0'], none⟩ : Literal).shift -
      ((['0'].length - ([] : List Char).length : Nat) : Int) = -1 := rfl
  rw [hkeep, hplaces, hscale, Option.bind_some]
  rfl

end Literal

namespace Number

open Decimal

theorem rounded_tenth {n : Nat} (hn : n < 2 ^ 49) :
    Rounded (Float.ofNat (10 * n) / Literal.powerOfTen 1) n := by
  have hlead : 2 * Binary.leadingBit = 2 ^ 53 := by norm_num [Binary.leadingBit]
  have htimes := Literal.unsigned_ofNat (n := 10 * n) (by omega)
  have hten := Literal.rounded_powerOfTen (e := 1) (by decide)
  have htimes' := htimes.magnitude_natCast (by omega)
  have hten' : Decimal.magnitude (Literal.powerOfTen 1) = (10 : Nat) :=
    Rounded.magnitude_natCast (by simpa using hten) (by norm_num [Binary.leadingBit])
  have hquotient : Decimal.magnitude (Float.ofNat (10 * n)) /
      Decimal.magnitude (Literal.powerOfTen 1) = n := by
    rw [htimes', hten']
    push_cast
    field_simp
  have hedge : (n : ℚ) < edge greatestExponent :=
    lt_of_lt_of_le (by exact_mod_cast hn) (pow_le_edge (k := 49) (by omega))
  have h := rounded_div htimes.toUnsigned hten.toUnsigned (by rw [hten']; norm_num)
    (by rwa [hquotient])
  rwa [hquotient] at h

/-- A whole number is read back as it is written. -/
theorem readsBack_of_whole {x : Float} {n : Nat} (hx : Unsigned x) (h : Decimal.magnitude x = n)
    (hn : n < 2 ^ 49) : (float x hx.finite).ReadsBack := by
  obtain ⟨whole, hliteral, hwhole⟩ := Literal.ofBinary_of_whole Binary.isDouble_ofFloat h hn
  have hround := hx.rounded
  rw [h] at hround
  have hback := (rounded_tenth hn).unique hround
  change (Literal.ofBinary (Binary.ofFloat x)).value? = _
  rw [hliteral, hx.positive, Literal.value?_whole hwhole hn, hback]
  exact dif_pos hx.finite

end Number

end ReplyCache
