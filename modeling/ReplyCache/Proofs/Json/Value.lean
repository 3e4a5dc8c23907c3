import ReplyCache.Proofs.Decimal.Arithmetic
import ReplyCache.Proofs.Json.Reading

namespace ReplyCache

namespace Text

theorem digitsValue_eq (ds : List Char) : digitsValue ds = Nat.ofDigitChars 10 ds 0 := by
  simp only [digitsValue, digitValue, Nat.ofDigitChars_eq_foldl, Nat.mul_comm]

end Text

namespace Literal

open Decimal

theorem keep_spec {n : Nat} (hn : n < 0x10000000000000000) (ds : List Char) :
    ∃ kept, ds = kept ++ (keep n ds).2 ∧ (keep n ds).1 = Nat.ofDigitChars 10 kept n ∧
      (keep n ds).1 < 0x10000000000000000 := by
  induction ds generalizing n with
  | nil => exact ⟨[], rfl, rfl, hn⟩
  | cons d ds ih =>
      simp only [keep]
      split
      · rename_i hlt
        obtain ⟨kept, hds, hvalue, hrange⟩ := ih hlt
        refine ⟨d :: kept, congrArg (d :: ·) hds, ?_, hrange⟩
        rw [hvalue, Nat.ofDigitChars_cons, Text.digitValue, Nat.mul_comm]
      · exact ⟨[], rfl, rfl, hn⟩

theorem edge_greatestExponent :
    edge greatestExponent = ((4 * Binary.leadingBit - 1) * 2 ^ 970 : Nat) := by
  have hunit : quarterUnit (greatestExponent + 1) = (2 ^ 970 : Nat) := by
    rw [Nat.cast_pow, ← zpow_natCast]
    rfl
  have hlead : ((4 * Binary.leadingBit - 1 : Nat) : ℚ) = 4 * Binary.leadingBit - 1 := by
    norm_num [Binary.leadingBit]
  rw [edge, hunit, ← hlead, ← Nat.cast_mul]

theorem pow_lt_edge_iff (e : Nat) : (10 : ℚ) ^ e < edge greatestExponent ↔ e ≤ mostPlaces := by
  have hin : 10 ^ mostPlaces < (4 * Binary.leadingBit - 1) * 2 ^ 970 := by decide +kernel
  have hout : (4 * Binary.leadingBit - 1) * 2 ^ 970 ≤ 10 ^ mostPlaces * 10 := by decide +kernel
  have hcast : (10 : ℚ) ^ e = (10 ^ e : Nat) := by rw [Nat.cast_pow, Nat.cast_ofNat]
  rw [edge_greatestExponent, hcast, Nat.cast_lt]
  constructor
  · intro h
    by_contra hgt
    have hle := Nat.pow_le_pow_right (n := 10) (by omega) (Nat.not_le.1 hgt)
    rw [Nat.succ_eq_add_one, pow_succ] at hle
    exact absurd (h.trans_le hout) (Nat.not_lt.2 hle)
  · intro h
    exact (Nat.pow_le_pow_right (by omega) h).trans_lt hin

theorem rounded_powerOfTen {e : Nat} (he : e ≤ mostPlaces) : Rounded (powerOfTen e) (10 ^ e) := by
  have h := rounded_ofScientific (n := 1) (e := e) (by unfold mostPlaces at he; omega)
    (by rw [Nat.cast_one, one_mul]; exact (pow_lt_edge_iff e).2 he)
  rwa [Nat.cast_one, one_mul] at h

theorem one_le_pow_ten (e : Nat) : (1 : ℚ) ≤ 10 ^ e := one_le_pow₀ (by norm_num)

theorem unsigned_div {x : Float} (hx : Unsigned x) {e : Nat} (he : e ≤ mostPlaces) :
    Unsigned (x / powerOfTen e) := by
  have hpower := rounded_powerOfTen he
  have hone := hpower.one_le (one_le_pow_ten e)
  refine (rounded_div hx hpower.toUnsigned (by linarith) ?_).toUnsigned
  exact (div_le_self (magnitude_nonneg x) hone).trans_lt hx.magnitude_lt

theorem unsigned_divide {x : Float} (hx : Unsigned x) {places : Nat} (hplaces : places ≤ mostPlaces)
    (steps : Nat) : Unsigned (divide x steps places) := by
  induction steps generalizing x with
  | zero => exact unsigned_div hx hplaces
  | succ steps ih =>
      rw [divide]
      split
      · exact hx
      · exact ih (unsigned_div hx (le_refl _))

theorem unsigned_ofNat {n : Nat} (hn : n < 0x10000000000000000) :
    Rounded (Float.ofNat n) n :=
  rounded_ofNat (lt_of_lt_of_le (by exact_mod_cast hn) (pow_le_edge (k := 64) (by omega)))

/-- Both the number and the power of ten may be rounded up before they are multiplied. -/
theorem unsigned_mul {n e : Nat} (hn : n < 0x10000000000000000) (he : e ≤ mostPlaces)
    (h : (n * 10 ^ e : ℚ) * (2 ^ 53 + 1) ^ 2 < edge greatestExponent * 2 ^ 106) :
    Unsigned (Float.ofNat n * powerOfTen e) := by
  have hx := unsigned_ofNat hn
  have hy := rounded_powerOfTen he
  refine (rounded_mul hx.toUnsigned hy.toUnsigned ?_).toUnsigned
  rcases Nat.eq_zero_or_pos n with rfl | hpos
  · have hzero := hx.magnitude_natCast (Nat.zero_le _)
    rw [hzero, Nat.cast_zero, zero_mul]
    exact lt_of_lt_of_le (by positivity) (pow_le_edge (k := 0) (by omega))
  · have hone : (1 : ℚ) ≤ n := by exact_mod_cast hpos
    have hx' := hx.magnitude_mul_le hone
    have hy' := hy.magnitude_mul_le (one_le_pow_ten e)
    have hmul := mul_le_mul hx' hy' (mul_nonneg (magnitude_nonneg _) (by norm_num)) (by positivity)
    refine lt_of_mul_lt_mul_right (lt_of_le_of_lt ?_ h) (by positivity : (0 : ℚ) ≤ 2 ^ 106)
    linarith

theorem exists_scale? {n : Nat} {e : Int} (hn : n < 0x10000000000000000)
    (h : value n e * (2 ^ 53 + 1) ^ 2 < edge greatestExponent * 2 ^ 106) :
    ∃ y, scale? n e = some y ∧ Unsigned y := by
  unfold scale?
  dsimp only
  split
  · rename_i hneg
    refine ⟨_, rfl, unsigned_divide (unsigned_ofNat hn).toUnsigned ?_ _⟩
    unfold mostPlaces
    omega
  · rename_i hnonneg
    have he : e = (e.toNat : Int) := by omega
    rw [he, value, zpow_natCast] at h
    split
    · rename_i hle
      have hmul := unsigned_mul hn (e := e.toNat) (by omega) h
      exact ⟨_, if_pos hmul.finite, hmul⟩
    · rename_i hgt
      have hzero : n = 0 := by
        by_contra hne
        have hone : (1 : ℚ) ≤ n := by exact_mod_cast Nat.pos_of_ne_zero hne
        have hlarge : edge greatestExponent ≤ 10 ^ e.toNat :=
          not_lt.1 ((pow_lt_edge_iff _).not.2 (by omega))
        have hvalue := hlarge.trans (le_mul_of_one_le_left (by positivity) hone)
        have hpos := (one_le_pow_ten 0).trans_lt ((pow_lt_edge_iff 0).2 (Nat.zero_le _))
        linarith
      rw [if_pos hzero]
      exact ⟨_, rfl, (unsigned_ofNat hn).toUnsigned⟩

theorem ofDigitChars_lt {ds : List Char} (h : AllDigits ds) :
    Nat.ofDigitChars 10 ds 0 < 10 ^ ds.length := by
  induction ds using List.reverseRecOn with
  | nil => simp
  | append_singleton ds d ih =>
      have hds := ih fun c hc => h c (List.mem_append_left _ hc)
      have hd : d.toNat - '0'.toNat ≤ 9 := by
        have hdigit := h d (by simp)
        simp only [Char.isDigit, Bool.and_eq_true, decide_eq_true_eq,
          UInt32.le_iff_toNat_le] at hdigit
        have hd : d.toNat = d.val.toNat := rfl
        have hnine : '9'.val.toNat = 57 := rfl
        have hzero : '0'.toNat = 48 := rfl
        omega
      rw [Nat.ofDigitChars_append, Nat.ofDigitChars_cons, Nat.ofDigitChars_nil, List.length_append,
        List.length_singleton, pow_succ]
      omega

theorem value_kept_le {l : Literal} {kept left : List Char}
    (hfraction : l.fraction = kept ++ left) :
    value (Nat.ofDigitChars 10 (l.whole ++ kept) 0) (l.shift - kept.length) ≤ l.magnitude := by
  have hdigits : Nat.ofDigitChars 10 (l.whole ++ kept) 0 * 10 ^ left.length ≤
      Nat.ofDigitChars 10 (l.whole ++ l.fraction) 0 := by
    rw [hfraction, ← List.append_assoc, Nat.ofDigitChars_append (l := l.whole ++ kept),
      Nat.ofDigitChars_eq_ofDigitChars_zero (l := left), Nat.mul_comm]
    exact Nat.le_add_right _ _
  have hdigits' : (Nat.ofDigitChars 10 (l.whole ++ kept) 0 * 10 ^ left.length : ℚ) ≤
      Nat.ofDigitChars 10 (l.whole ++ l.fraction) 0 := by exact_mod_cast hdigits
  have hlength : l.fraction.length = kept.length + left.length := by
    rw [hfraction, List.length_append]
  have hshift : l.shift - kept.length = left.length + (l.shift - l.fraction.length) := by omega
  rw [magnitude, value, value, hshift, zpow_add₀ (by norm_num), zpow_natCast, ← mul_assoc]
  exact mul_le_mul_of_nonneg_right hdigits' (by positivity)

theorem value?_eq {l : Literal} (hrange : Nat.ofDigitChars 10 l.whole 0 < 0x10000000000000000)
    (hreal : l.fraction ≠ [] ∨ l.exponent ≠ none) :
    l.value? =
      (scale? (keep (Nat.ofDigitChars 10 l.whole 0) l.fraction).1 (l.shift - (l.fraction.length -
        (keep (Nat.ofDigitChars 10 l.whole 0) l.fraction).2.length : Nat))).bind fun x =>
          Number.ofFloat? (signed l.negative x) := by
  have hkeep := keep_of_lt hrange
  obtain ⟨negative, whole, fraction, _ | ⟨_ | _, digits⟩⟩ := l
  · have hfraction : fraction.isEmpty = false := by simpa using hreal
    simp [value?, shift, hkeep, hfraction]
  · simp [value?, shift, hkeep, Text.digitsValue_eq, neg_add_eq_sub]
  · simp [value?, shift, hkeep, Text.digitsValue_eq, neg_add_eq_sub]

theorem isSome_value? {l : Literal} (hwhole : AllDigits l.whole) (hlength : l.whole.length ≤ 19)
    (hreal : l.fraction ≠ [] ∨ l.exponent ≠ none)
    (h : l.magnitude * (2 ^ 53 + 1) ^ 2 < edge greatestExponent * 2 ^ 106) :
    l.value?.isSome = true := by
  have hrange : Nat.ofDigitChars 10 l.whole 0 < 0x10000000000000000 :=
    (ofDigitChars_lt hwhole).trans_le
      ((Nat.pow_le_pow_right (by omega) hlength).trans (by decide))
  obtain ⟨kept, hfraction, hkept, hrange'⟩ := keep_spec hrange l.fraction
  rw [← Nat.ofDigitChars_append] at hkept
  have hplaces : l.fraction.length - (keep (Nat.ofDigitChars 10 l.whole 0) l.fraction).2.length =
      kept.length := by
    have hlength' := congrArg List.length hfraction
    rw [List.length_append] at hlength'
    omega
  have hbound := mul_le_mul_of_nonneg_right (value_kept_le hfraction)
    (by positivity : (0 : ℚ) ≤ (2 ^ 53 + 1) ^ 2)
  rw [← hkept] at hbound
  obtain ⟨y, hy, hunsigned⟩ := exists_scale? hrange' (hbound.trans_lt h)
  have hsigned : (signed l.negative y).isFinite = true := by
    unfold signed
    split
    · exact isFinite_neg hunsigned.finite
    · exact hunsigned.finite
  rw [value?_eq hrange hreal, hplaces, hy, Option.bind_some]
  simp [Number.ofFloat?, hsigned]

theorem length_whole_ofBinary (b : Binary) : (ofBinary b).whole.length ≤ 19 := by
  unfold ofBinary
  split
  · simp
  · dsimp only
    split
    · rename_i hplaces
      unfold Number.leastPositional Number.mostPositional at hplaces
      simp only [Bool.and_eq_true, decide_eq_true_eq] at hplaces
      unfold ofPositional
      split
      · simp
      · simp only [List.length_append, List.length_take, List.length_replicate]
        omega
    · simp only [ofScientific, List.length_take]
      omega

end Literal

namespace Number

open Literal Decimal

/-- The greatest doubles of all, which have to be looked at one by one. -/
theorem isSome_value?_ofBinary_greatest {b : Binary} (hlow : 9007199254740989 ≤ b.significand)
    (hhigh : b.significand < 9007199254740992) (hq : b.exponent = 971) :
    (ofBinary b).value?.isSome = true := by
  have hall : ∀ (negative : Bool) (i : Fin 3),
      (ofBinary ⟨negative, 9007199254740989 + i.val, 971⟩).value?.isSome = true := by
    decide +kernel
  obtain ⟨negative, m, q⟩ := b
  obtain ⟨i, rfl⟩ := Nat.exists_eq_add_of_le hlow
  dsimp only at hq hhigh
  subst hq
  exact hall negative ⟨i, by omega⟩

theorem value_mul_lt_edge {m : Nat} {q : Int} {r : ℚ} (hd : InFormat m q) (h : Rounds m q r)
    (hq : q ≤ greatestExponent) (hroom : q = greatestExponent → m < 9007199254740989) :
    r * (2 ^ 53 + 1) ^ 2 < edge greatestExponent * 2 ^ 106 := by
  have hu := quarterUnit_pos greatestExponent
  have hedge : edge greatestExponent =
      (4 * Binary.leadingBit - 1) * (2 * quarterUnit greatestExponent) := by
    rw [edge, quarterUnit_add_one]
  have hlead : (Binary.leadingBit : ℚ) = 2 ^ 52 := by norm_num [Binary.leadingBit]
  rw [hedge, hlead]
  rcases Int.lt_or_eq_of_le hq with hlt | rfl
  · have hle := (lt_edge hd h).le.trans (edge_mono (Int.le_sub_one_of_lt hlt))
    rw [edge, sub_add_cancel, hlead] at hle
    linarith
  · have hm : (m : ℚ) + 1 ≤ 9007199254740989 := by exact_mod_cast hroom rfl
    have hhigh := h.high
    have hmu := mul_le_mul_of_nonneg_right hm hu.le
    linarith

/-- Every number is read as some number. -/
theorem isSome_value?_literal (n : Number) : n.literal.value?.isSome = true := by
  cases n with
  | integer i h =>
      have hback := readsBack_integer i h
      rw [ReadsBack] at hback
      rw [hback]
      rfl
  | float x hfinite =>
      have hq := (isFinite_iff x).1 hfinite
      have hformat := inFormat_ofFloat x
      have hbounded : (Binary.ofFloat x).significand < 9007199254740992 := hformat.bounded
      change (ofBinary (Binary.ofFloat x)).value?.isSome = true
      by_cases hgreat : 9007199254740989 ≤ (Binary.ofFloat x).significand ∧
          (Binary.ofFloat x).exponent = 971
      · exact isSome_value?_ofBinary_greatest hgreat.1 hbounded hgreat.2
      · have hwell := wellFormed_ofBinary (b := Binary.ofFloat x) shortest_pos
        refine isSome_value? hwell.whole.1 (length_whole_ofBinary _) (real_ofBinary shortest_pos) ?_
        rcases Nat.eq_zero_or_pos (Binary.ofFloat x).significand with hzero | hpos
        · have hedge := (one_le_pow_ten 0).trans_lt ((pow_lt_edge_iff 0).2 (Nat.zero_le _))
          rw [magnitude_of_zero hzero, zero_mul]
          positivity
        · rw [magnitude_ofBinary hpos (shortest_pos hpos)]
          have hrounds := roundsTo_bounds hpos (roundsTo_shortest (Binary.isDouble_ofFloat hpos))
          refine value_mul_lt_edge hformat hrounds hq fun heq => ?_
          by_contra hge
          exact hgreat ⟨by omega, heq⟩

end Number

namespace Json

mutual

/-- Every value that does not nest too deep comes back as some value. -/
theorem isSome_toJson? : (v : Json) → {depth : Nat} → nesting v ≤ depth →
    (Tree.toJson? depth (toTree v)).isSome = true
  | null, depth, _ | bool _, depth, _ | string _, depth, _ => by cases depth <;> rfl
  | number n, depth, _ => by
      have hn := n.isSome_value?_literal
      rw [toTree]
      cases depth <;> simpa [Tree.toJson?] using hn
  | array xs, 0, h => absurd h (Nat.not_succ_le_zero _)
  | array xs, depth + 1, h => by
      have hxs := isSome_itemsToJson? xs (Nat.le_of_succ_le_succ h)
      simpa [toTree, Tree.toJson?] using hxs
  | object ms, 0, h => absurd h (Nat.not_succ_le_zero _)
  | object ms, depth + 1, h => by
      have hms := isSome_membersToJson? ms (Nat.le_of_succ_le_succ h)
      simpa [toTree, Tree.toJson?] using hms
termination_by structural v => v

theorem isSome_itemsToJson? : (xs : List Json) → {depth : Nat} → itemsNesting xs ≤ depth →
    (Tree.itemsToJson? depth (itemsToTrees xs)).isSome = true
  | [], depth, _ => rfl
  | x :: xs, depth, h => by
      obtain ⟨hx, hxs⟩ := Nat.max_le.1 h
      obtain ⟨v, hv⟩ := Option.isSome_iff_exists.1 (isSome_toJson? x hx)
      obtain ⟨vs, hvs⟩ := Option.isSome_iff_exists.1 (isSome_itemsToJson? xs hxs)
      simp [itemsToTrees, Tree.itemsToJson?, hv, hvs]
termination_by structural xs => xs

theorem isSome_membersToJson? : (ms : List (String × Json)) → {depth : Nat} →
    membersNesting ms ≤ depth → (Tree.membersToJson? depth (membersToTrees ms)).isSome = true
  | [], depth, _ => rfl
  | m :: ms, depth, h => by
      obtain ⟨hm, hms⟩ := Nat.max_le.1 h
      obtain ⟨e, he⟩ := Option.isSome_iff_exists.1 (isSome_memberToJson? m hm)
      obtain ⟨es, hes⟩ := Option.isSome_iff_exists.1 (isSome_membersToJson? ms hms)
      simp [membersToTrees, Tree.membersToJson?, he, hes]
termination_by structural ms => ms

theorem isSome_memberToJson? : (m : String × Json) → {depth : Nat} → memberNesting m ≤ depth →
    (Tree.memberToJson? depth (memberToTrees m)).isSome = true
  | (name, v), depth, h => by
      have hv := isSome_toJson? v h
      simpa [memberToTrees, Tree.memberToJson?] using hv
termination_by structural m => m

end

end Json

end ReplyCache
