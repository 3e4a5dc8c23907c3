import Mathlib.Tactic.FieldSimp
import ReplyCache.Proofs.Decimal.Interval

namespace ReplyCache

namespace Decimal

open Float.Model (Format UnpackedFloat totalExponent)
open Float.Model.UnpackedFloat

/-- A number cut off to a natural one. The first bit tells whether at least a half was cut, and the
second whether the bits up to the first leave something out. -/
structure Cuts (em : ExtendedMantissa) (x : ℚ) : Prop where
  low : em.mantissa ≤ x
  high : x < em.mantissa + 1
  half : em.roundBit = true ↔ (em.mantissa + 1 / 2 : ℚ) ≤ x
  rest : em.stickyBit = true ↔ x ≠ em.mantissa ∧ x ≠ em.mantissa + 1 / 2

theorem cuts_exact (m : Nat) : Cuts (.ofMantissaAndAccuracy m .exact) m where
  low := le_refl _
  high := by simp [ExtendedMantissa.ofMantissaAndAccuracy]
  half := by simp [ExtendedMantissa.ofMantissaAndAccuracy]
  rest := by simp [ExtendedMantissa.ofMantissaAndAccuracy]

theorem cuts_of_compare {n : Nat} {x : ℚ} {o : Ordering} (hlow : n < x) (hhigh : x < n + 1)
    (hlt : o = .lt → x < n + 1 / 2) (heq : o = .eq → x = n + 1 / 2)
    (hgt : o = .gt → n + 1 / 2 < x) :
    Cuts (.ofMantissaAndAccuracy n (.inexact o)) x := by
  cases o with
  | lt =>
      have h := hlt rfl
      exact ⟨hlow.le, hhigh, by simpa [ExtendedMantissa.ofMantissaAndAccuracy] using h,
        by simpa [ExtendedMantissa.ofMantissaAndAccuracy] using ⟨hlow.ne', by linarith⟩⟩
  | eq =>
      have h := heq rfl
      exact ⟨hlow.le, hhigh, by simp [ExtendedMantissa.ofMantissaAndAccuracy, h],
        by simp [ExtendedMantissa.ofMantissaAndAccuracy, h]⟩
  | gt =>
      have h := hgt rfl
      exact ⟨hlow.le, hhigh, by simpa [ExtendedMantissa.ofMantissaAndAccuracy] using h.le,
        by simpa [ExtendedMantissa.ofMantissaAndAccuracy] using ⟨hlow.ne', by linarith⟩⟩

theorem cuts_fraction {num den : Nat} (hden : 0 < den) :
    Cuts (.ofMantissaAndAccuracy (num / den) (accuracyOfFraction (num % den) den))
      ((num : ℚ) / den) := by
  have hpos : (0 : ℚ) < den := by exact_mod_cast hden
  have hlt : ((num % den : Nat) : ℚ) < den := by exact_mod_cast Nat.mod_lt num hden
  have hsplit : (num : ℚ) / den = (num / den : Nat) + (num % den : Nat) / (den : ℚ) := by
    have hnat : ((den * (num / den) + num % den : Nat) : ℚ) = num := by rw [Nat.div_add_mod]
    push_cast at hnat
    rw [← hnat]
    field_simp
  rw [hsplit, accuracyOfFraction]
  generalize num / den = n
  generalize num % den = r at hlt
  split
  · rename_i hzero
    simpa [hzero] using cuts_exact n
  · rename_i hne
    have hr : (0 : ℚ) < r := by exact_mod_cast Nat.pos_of_ne_zero hne
    have hfrac : (r : ℚ) / den < 1 := (div_lt_one hpos).2 hlt
    have hfracPos : 0 < (r : ℚ) / den := div_pos hr hpos
    apply cuts_of_compare
    · linarith
    · linarith
    · intro h
      have hlt' : (2 * r : ℚ) < den := by exact_mod_cast Nat.compare_eq_lt.1 h
      have hhalf : (r : ℚ) / den < 1 / 2 := by
        rw [div_lt_iff₀ hpos]
        linarith
      linarith
    · intro h
      have heq : (2 * r : ℚ) = den := by exact_mod_cast Nat.compare_eq_eq.1 h
      have hhalf : (r : ℚ) / den = 1 / 2 := by
        rw [div_eq_iff hpos.ne']
        linarith
      rw [hhalf]
    · intro h
      have hgt : (den : ℚ) < 2 * r := by exact_mod_cast Nat.compare_eq_gt.1 h
      have hhalf : 1 / 2 < (r : ℚ) / den := by
        rw [lt_div_iff₀ hpos]
        linarith
      linarith

theorem Cuts.ne_iff {em : ExtendedMantissa} {x : ℚ} (h : Cuts em x) :
    (em.roundBit || em.stickyBit) = true ↔ x ≠ em.mantissa := by
  rw [Bool.or_eq_true, h.half, h.rest]
  constructor
  · rintro (hhalf | ⟨hne, -⟩)
    · intro heq
      linarith
    · exact hne
  · intro hne
    by_cases heq : x = em.mantissa + 1 / 2
    · exact .inl heq.ge
    · exact .inr ⟨hne, heq⟩

theorem Cuts.shiftRightOne {em : ExtendedMantissa} {x : ℚ} (h : Cuts em x) :
    Cuts em.shiftRightOne (x / 2) := by
  have hne := h.ne_iff
  have hlow := h.low
  have hhigh := h.high
  have hsplit : (em.mantissa : ℚ) = 2 * (em.mantissa / 2 : Nat) + (em.mantissa % 2 : Nat) := by
    exact_mod_cast (Nat.div_add_mod em.mantissa 2).symm
  refine ⟨?_, ?_, ?_, ?_⟩ <;> simp only [ExtendedMantissa.shiftRightOne]
  all_goals rcases Nat.mod_two_eq_zero_or_one em.mantissa with hbit | hbit
  all_goals simp only [hbit, Nat.cast_zero, Nat.cast_one] at hsplit
  · linarith
  · linarith
  · linarith
  · linarith
  · refine iff_of_false (by simp [hbit]) (not_le.2 ?_)
    linarith
  · refine iff_of_true (by simp [hbit]) ?_
    linarith
  · rw [hne]
    constructor
    · intro hx
      exact ⟨fun heq => hx (by linarith), fun heq => by linarith⟩
    · rintro ⟨hx, -⟩ heq
      exact hx (by linarith)
  · rw [hne]
    constructor
    · intro hx
      exact ⟨fun heq => by linarith, fun heq => hx (by linarith)⟩
    · rintro ⟨-, hx⟩ heq
      exact hx (by linarith)

theorem Cuts.shiftRight {em : ExtendedMantissa} {x : ℚ} (h : Cuts em x) (k : Nat) :
    Cuts (em >>> k) (x / 2 ^ k) := by
  change Cuts (k.repeat ExtendedMantissa.shiftRightOne em) _
  induction k with
  | zero => simpa [Nat.repeat] using h
  | succ k ih =>
      rw [Nat.repeat, pow_succ, ← div_div]
      exact ih.shiftRightOne

theorem mantissa_shiftRight (em : ExtendedMantissa) (k : Nat) :
    (em >>> k).mantissa = em.mantissa / 2 ^ k := by
  change (k.repeat ExtendedMantissa.shiftRightOne em).mantissa = _
  induction k with
  | zero => simp [Nat.repeat]
  | succ k ih =>
      rw [Nat.repeat, ExtendedMantissa.shiftRightOne, ih, Nat.div_div_eq_div_mul, pow_succ]

theorem mantissa_ofMantissaAndAccuracy (m : Nat) (accuracy : Accuracy) :
    (ExtendedMantissa.ofMantissaAndAccuracy m accuracy).mantissa = m := by
  rcases accuracy with _ | (_ | _ | _) <;> rfl

/-- A natural number at most a half away; at a half it is even. -/
structure Near (n : Nat) (x : ℚ) : Prop where
  low : n - 1 / 2 ≤ x
  high : x ≤ n + 1 / 2
  odd : n % 2 = 1 → n - 1 / 2 < x ∧ x < n + 1 / 2

theorem Cuts.near {em : ExtendedMantissa} {x : ℚ} (h : Cuts em x) :
    Near em.roundedMantissa x ∧ em.mantissa ≤ em.roundedMantissa ∧
      em.roundedMantissa ≤ em.mantissa + 1 := by
  obtain ⟨m, roundBit, stickyBit⟩ := em
  obtain ⟨hlow, hhigh, hhalf, hrest⟩ := h
  dsimp only at *
  cases roundBit with
  | false =>
      have hlt : x < m + 1 / 2 := by simpa using hhalf
      have hrounded : (ExtendedMantissa.mk m false stickyBit).roundedMantissa = m := by
        cases stickyBit <;> rfl
      rw [hrounded]
      exact ⟨⟨by linarith, hlt.le, fun _ => ⟨by linarith, hlt⟩⟩, le_refl _, by omega⟩
  | true =>
      have hle : m + 1 / 2 ≤ x := by simpa using hhalf
      cases stickyBit with
      | true =>
          have hne : x ≠ m + 1 / 2 := (hrest.1 rfl).2
          have hlt : m + 1 / 2 < x := lt_of_le_of_ne hle hne.symm
          refine ⟨?_, Nat.le_succ m, le_refl _⟩
          change Near (m + 1) x
          refine ⟨?_, ?_, fun _ => ⟨?_, ?_⟩⟩ <;> push_cast <;> linarith
      | false =>
          have heq : x = m + 1 / 2 := by
            by_contra hne
            have hm : x ≠ m := by
              intro hm
              linarith
            exact Bool.false_ne_true (hrest.2 ⟨hm, hne⟩)
          -- a tie goes to the even neighbour
          have hparity : (m + m % 2) % 2 = 0 := by omega
          refine ⟨?_, Nat.le_add_right m _, ?_⟩
          · change Near (m + m % 2) x
            refine ⟨?_, ?_, fun hodd => by omega⟩ <;>
              rcases Nat.mod_two_eq_zero_or_one m with hbit | hbit <;> rw [hbit, heq] <;>
              push_cast <;> linarith
          · change m + m % 2 ≤ m + 1
            omega

theorem targetExponent_eq (m : Nat) (e : Int) : Format.binary64.targetExponent (totalExponent m e) =
    max ((m.log2 : Int) + 1 + e - 53) Binary.leastExponent := rfl

theorem shiftToTargetExponent_cuts {m : Nat} {e : Int} {accuracy : Accuracy} {x : ℚ}
    (h : Cuts (.ofMantissaAndAccuracy m accuracy) x)
    (he : e ≤ Format.binary64.targetExponent (totalExponent m e)) :
    ∃ em q, shiftToTargetExponent Format.binary64 m e accuracy = (em, q) ∧
      Cuts em (x * 2 ^ e / 2 ^ q) ∧ InFormat em.mantissa q := by
  have hlog := Nat.lt_log2_self (n := m)
  have htarget := targetExponent_eq m e
  rw [htarget] at he
  set q := max ((m.log2 : Int) + 1 + e - 53) Binary.leastExponent with hq
  set k := (q - e).toNat with hk
  have hshift : e + k = q := by omega
  refine ⟨ExtendedMantissa.ofMantissaAndAccuracy m accuracy >>> k, q, ?_, ?_, ?_⟩
  · simp only [shiftToTargetExponent, shiftToExponent, htarget, ← hk, hshift]
  · have hscale : x * 2 ^ e / 2 ^ q = x / 2 ^ k := by
      rw [← hshift, zpow_add₀ (by norm_num), zpow_natCast]
      field_simp
    rw [hscale]
    exact h.shiftRight k
  · rw [mantissa_shiftRight, mantissa_ofMantissaAndAccuracy]
    have hlead : 2 * Binary.leadingBit = 2 ^ 53 := by norm_num [Binary.leadingBit]
    refine ⟨?_, le_max_right _ _, ?_⟩
    · rw [hlead, Nat.div_lt_iff_lt_mul (by positivity), ← pow_add]
      exact hlog.trans_le (Nat.pow_le_pow_right (by omega) (by omega))
    · by_cases hfoot : q = Binary.leastExponent
      · exact .inl hfoot
      · have hleast : Binary.leastExponent = -1074 := rfl
        have hm : m ≠ 0 := by
          rintro rfl
          rw [Nat.log2_zero] at hq
          omega
        have hlead' : Binary.leadingBit = 2 ^ 52 := by norm_num [Binary.leadingBit]
        refine .inr ?_
        rw [hlead', Nat.le_div_iff_mul_le (by positivity), ← pow_add]
        exact (Nat.pow_le_pow_right (by omega) (by omega)).trans (Nat.log2_self_le hm)

/-- Rounding may give one digit more than there is room for; then the last digit is zero. -/
theorem shiftToTargetExponent_exact {m : Nat} {q : Int} (hm : m ≤ 2 * Binary.leadingBit)
    (hq : Binary.leastExponent ≤ q) :
    ∃ em q', shiftToTargetExponent Format.binary64 m q .exact = (em, q') ∧
      (m < 2 * Binary.leadingBit ∧ em.mantissa = m ∧ q' = q ∨
        m = 2 * Binary.leadingBit ∧ em.mantissa = Binary.leadingBit ∧ q' = q + 1) := by
  have hlead : 2 * Binary.leadingBit = 2 ^ 53 := by norm_num [Binary.leadingBit]
  have hleast : Binary.leastExponent = -1074 := rfl
  have htarget := targetExponent_eq m q
  rcases Nat.lt_or_eq_of_le hm with hlt | rfl
  · have hlog : m.log2 ≤ 52 := by
      rcases Nat.eq_zero_or_pos m with rfl | hpos
      · decide
      · have hbits := (Nat.log2_lt (Nat.pos_iff_ne_zero.1 hpos)).2 (hlead ▸ hlt)
        omega
    have hzero : (max ((m.log2 : Int) + 1 + q - 53) Binary.leastExponent - q).toNat = 0 := by omega
    refine ⟨_, _, rfl, .inl ⟨hlt, ?_, ?_⟩⟩
    · simp only [htarget, hzero, mantissa_shiftRight, pow_zero, Nat.div_one]
      rfl
    · simp [htarget, hzero]
  · have hlog : (2 * Binary.leadingBit).log2 = 53 := by rw [hlead, Nat.log2_two_pow]
    have hone : (max ((53 : Nat) + 1 + q - 53) Binary.leastExponent - q).toNat = 1 := by omega
    rw [hlog] at htarget
    refine ⟨_, _, rfl, .inr ⟨rfl, ?_, ?_⟩⟩
    · simp only [htarget, hone, mantissa_shiftRight, mantissa_ofMantissaAndAccuracy, pow_one]
      omega
    · simp only [htarget, hone]
      rfl

theorem Near.rounds {m : Nat} {q : Int} {x : ℚ} (h : Near m (x / 2 ^ q))
    (hlow : m = Binary.leadingBit → q ≠ Binary.leastExponent → (m : ℚ) ≤ x / 2 ^ q) :
    Rounds m q x := by
  have hpow : (0 : ℚ) < 2 ^ q := by positivity
  have hquarter := four_mul_quarterUnit q
  have hx : x = 4 * (x / 2 ^ q) * quarterUnit q := by
    rw [mul_right_comm, hquarter]
    field_simp
  have hu := quarterUnit_pos q
  by_cases hnarrow : m = Binary.leadingBit ∧ q ≠ Binary.leastExponent
  · have hreach : (reach m q : ℚ) = 1 := by
      rw [hnarrow.1, reach_leadingBit hnarrow.2]
      norm_num
    have hle := hlow hnarrow.1 hnarrow.2
    have hhigh := h.high
    have heven : m % 2 = 0 := by rw [hnarrow.1]; rfl
    refine ⟨?_, ?_, fun hodd => by omega⟩ <;> rw [hx] <;>
      refine mul_le_mul_of_nonneg_right ?_ hu.le <;> linarith
  · have hreach : (reach m q : ℚ) = 2 := by
      have hbool : Binary.isNarrowBelow m q = false := by
        simpa [Binary.isNarrowBelow] using hnarrow
      rw [reach, hbool]
      norm_num
    have hbelow := h.low
    have habove := h.high
    refine ⟨?_, ?_, fun hodd => ?_⟩
    · rw [hx]
      exact mul_le_mul_of_nonneg_right (by linarith) hu.le
    · rw [hx]
      exact mul_le_mul_of_nonneg_right (by linarith) hu.le
    · obtain ⟨hlt, hgt⟩ := h.odd hodd
      rw [hx]
      exact ⟨mul_lt_mul_of_pos_right (by linarith) hu, mul_lt_mul_of_pos_right (by linarith) hu⟩

/-- Half a unit below a power of two lies half way to the next double below it. -/
theorem rounds_of_carry {q : Int} {x : ℚ} (hq : Binary.leastExponent ≤ q)
    (h : Near (2 * Binary.leadingBit) (x / 2 ^ q)) : Rounds Binary.leadingBit (q + 1) x := by
  have hpow : (0 : ℚ) < 2 ^ q := by positivity
  have hquarter : 2 * quarterUnit (q + 1) = 2 ^ q := by
    rw [quarterUnit_add_one, ← four_mul_quarterUnit]
    ring
  have hx : x = 2 * (x / 2 ^ q) * quarterUnit (q + 1) := by
    rw [mul_right_comm, hquarter]
    field_simp
  have hu := quarterUnit_pos (q + 1)
  have hlow := h.low
  have hhigh := h.high
  push_cast at hlow hhigh
  have hreach : (reach Binary.leadingBit (q + 1) : ℚ) = 1 := by
    rw [reach_leadingBit (by omega)]
    norm_num
  have heven : Binary.leadingBit % 2 = 0 := rfl
  refine ⟨?_, ?_, fun hodd => by omega⟩ <;> rw [hx] <;>
    refine mul_le_mul_of_nonneg_right ?_ hu.le <;> linarith

def ofParts (s : Sign) (m : Nat) (q : Int) : UnpackedFloat :=
  if h : m = 0 then .zero s else .finite s m q (Nat.pos_of_ne_zero h)

/-- Rounding gives the double in whose interval the number lies. -/
theorem rounds_roundWithAccuracy {s : Sign} {m : Nat} {e : Int} {accuracy : Accuracy} {x : ℚ}
    (h : Cuts (.ofMantissaAndAccuracy m accuracy) x)
    (he : e ≤ Format.binary64.targetExponent (totalExponent m e)) :
    ∃ m' q', roundWithAccuracy Format.binary64 s m e accuracy = ofParts s m' q' ∧
      InFormat m' q' ∧ Rounds m' q' (x * 2 ^ e) := by
  obtain ⟨em, q, hshift, hcuts, hformat⟩ := shiftToTargetExponent_cuts h he
  obtain ⟨hnear, hle, hlt⟩ := hcuts.near
  have hbounded := hformat.bounded
  obtain ⟨em', q', hshift', hcases⟩ := shiftToTargetExponent_exact
    (m := em.roundedMantissa) (by omega) hformat.least
  have hround : roundWithAccuracy Format.binary64 s m e accuracy = ofParts s em'.mantissa q' := by
    rw [roundWithAccuracy, hshift]
    dsimp only
    rw [hshift']
    rfl
  refine ⟨em'.mantissa, q', hround, ?_⟩
  rcases hcases with ⟨hsmall, hm, rfl⟩ | ⟨hcarry, hm, rfl⟩
  · rw [hm]
    refine ⟨⟨hsmall, hformat.least, hformat.normal.imp_right fun hlead => hlead.trans hle⟩,
      hnear.rounds fun hlead hfoot => ?_⟩
    -- the number is not below a power of two that it was rounded up to
    have hmantissa : em.mantissa = em.roundedMantissa := by
      have hnormal := hformat.normal.resolve_left hfoot
      omega
    rw [← hmantissa]
    exact hcuts.low
  · rw [hm]
    have hleast := hformat.least
    refine ⟨⟨by decide, by omega, .inr (le_refl _)⟩, ?_⟩
    rw [hcarry] at hnear
    exact rounds_of_carry hleast hnear

end Decimal

end ReplyCache
