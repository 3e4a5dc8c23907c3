import ReplyCache.Proofs.Decimal.Arithmetic
import ReplyCache.Span

namespace ReplyCache

namespace Span

open Decimal

theorem roundQuotient_near (num : Nat) {den : Nat} (hden : 0 < den) :
    2 * roundQuotient num den * den ≤ 2 * num + den ∧
      2 * num ≤ 2 * roundQuotient num den * den + den := by
  have hmod := Nat.mod_lt num hden
  have hsplit := Nat.div_add_mod' num den
  unfold roundQuotient
  dsimp only
  generalize num / den = n at hsplit ⊢
  generalize num % den = r at hmod hsplit ⊢
  have hpos : 0 ≤ r := Nat.zero_le r
  subst hsplit
  cases hcompare : compare (2 * r) den with
  | lt =>
      have hlt := Nat.compare_eq_lt.1 hcompare
      constructor <;> dsimp only <;> linarith
  | gt =>
      have hgt := Nat.compare_eq_gt.1 hcompare
      constructor <;> dsimp only <;> linarith
  | eq =>
      have heq := Nat.compare_eq_eq.1 hcompare
      dsimp only
      split <;> constructor <;> linarith

def nanosecondsOf (x : Float) : Nat :=
  roundQuotient
    ((Binary.ofFloat x).significand * Nat.pow 2 (Binary.ofFloat x).exponent.toNat * perSecond)
    (Nat.pow 2 (-(Binary.ofFloat x).exponent).toNat)

theorem scale_magnitude (x : Float) :
    (((Binary.ofFloat x).significand * Nat.pow 2 (Binary.ofFloat x).exponent.toNat *
      perSecond : Nat) : ℚ) =
        magnitude x * perSecond * (Nat.pow 2 (-(Binary.ofFloat x).exponent).toNat : Nat) := by
  have hscale := zpow_mul_pow_toNat 2 (by norm_num) (Binary.ofFloat x).exponent
  simp only [magnitude, Nat.pow_eq]
  push_cast
  rw [← hscale]
  ring

theorem nanosecondsOf_near (x : Float) : |magnitude x * perSecond - nanosecondsOf x| ≤ 1 / 2 := by
  have hscale := scale_magnitude x
  have hden : 0 < Nat.pow 2 (-(Binary.ofFloat x).exponent).toNat := Nat.two_pow_pos _
  obtain ⟨hlow, hhigh⟩ := roundQuotient_near
    ((Binary.ofFloat x).significand * Nat.pow 2 (Binary.ofFloat x).exponent.toNat * perSecond) hden
  rw [← nanosecondsOf] at hlow hhigh
  generalize Nat.pow 2 (-(Binary.ofFloat x).exponent).toNat = den at *
  generalize (Binary.ofFloat x).significand * _ * _ = num at *
  have hdenQ : (0 : ℚ) < den := by exact_mod_cast hden
  have hlowQ : 2 * (nanosecondsOf x : ℚ) * den ≤ 2 * num + den := by exact_mod_cast hlow
  have hhighQ : (2 * num : ℚ) ≤ 2 * nanosecondsOf x * den + den := by exact_mod_cast hhigh
  rw [hscale] at hlowQ hhighQ
  rw [abs_le]
  constructor <;> refine le_of_mul_le_mul_right ?_ hdenQ <;> linarith

theorem nanosecondsOf_eq {x : Float} {n : Nat} (h : |magnitude x * perSecond - n| < 1 / 2) :
    nanosecondsOf x = n := by
  have hnear := nanosecondsOf_near x
  rw [abs_le] at hnear
  rw [abs_lt] at h
  have hle : (nanosecondsOf x : ℚ) < n + 1 := by linarith
  have hge : (n : ℚ) < nanosecondsOf x + 1 := by linarith
  have hle' : nanosecondsOf x < n + 1 := by exact_mod_cast hle
  have hge' : n < nanosecondsOf x + 1 := by exact_mod_cast hge
  omega

theorem unpack_zero : (0 : Float).toModel.unpack = .zero .positive := rfl

theorem lt_zero_iff {x : Float} (h : x.isFinite = true) :
    x < 0 ↔ (Binary.ofFloat x).negative = true ∧ 0 < (Binary.ofFloat x).significand := by
  have hlt : x < 0 ↔ x.toModel.unpack.lt (0 : Float).toModel.unpack = true := decide_eq_true_iff
  rw [hlt, unpack_zero, unpack_eq_ofParts h]
  rcases Nat.eq_zero_or_pos (Binary.ofFloat x).significand with hzero | hpos
  · rw [hzero, ofParts_zero]
    exact iff_of_false Bool.false_ne_true fun hneg => (lt_irrefl 0) hneg.2
  · rw [ofParts_pos hpos]
    cases (Binary.ofFloat x).negative with
    | false => exact iff_of_false Bool.false_ne_true fun hneg => Bool.false_ne_true hneg.1
    | true => exact iff_of_true rfl ⟨rfl, hpos⟩

theorem ofSeconds?_of_unsigned {x : Float} (h : Unsigned x) :
    ofSeconds? x = ofNanoseconds? (nanosecondsOf x) := by
  have hlt : ¬ x < 0 := by simp [lt_zero_iff h.finite, h.positive]
  simp [ofSeconds?, h.finite, hlt, nanosecondsOf]

theorem ofNanoseconds?_eq_some {n : Nat} {s : Span} :
    ofNanoseconds? n = some s ↔ n = s.nanoseconds := by
  obtain ⟨m, hm⟩ := s
  unfold ofNanoseconds?
  split
  · simp
  · simp
    omega

/-- A span that is read off seconds is read off a number that is not negative, but for `-0.0`. -/
theorem unsigned_of_ofSeconds? {x : Float} {s : Span} (h : ofSeconds? x = some s)
    (hpos : 0 < s.nanoseconds) : Unsigned x ∧ nanosecondsOf x = s.nanoseconds := by
  unfold ofSeconds? at h
  split at h
  · rename_i hguard
    obtain ⟨hfinite, hlt⟩ : x.isFinite = true ∧ ¬ x < 0 := by simpa using hguard
    have hn : nanosecondsOf x = s.nanoseconds := ofNanoseconds?_eq_some.1 h
    refine ⟨⟨hfinite, ?_⟩, hn⟩
    rw [lt_zero_iff hfinite, not_and_or, Bool.not_eq_true] at hlt
    refine hlt.resolve_right fun hsig => ?_
    have hzero : nanosecondsOf x = 0 := by
      refine nanosecondsOf_eq ?_
      have hsig' : (Binary.ofFloat x).significand = 0 := by omega
      simp [magnitude, hsig']
    omega
  · cases h

theorem seconds_add_fraction (s : Span) : s.seconds * perSecond + s.fraction = s.nanoseconds :=
  Nat.div_add_mod' _ _

theorem fraction_lt (s : Span) : s.fraction < perSecond := Nat.mod_lt _ (by decide)

theorem seconds_lt (s : Span) : s.seconds < 0x10000000000000000 := by
  have hlt := s.inRange
  unfold seconds perSecond
  omega

def wholeSeconds (s : Span) : Float := Float.ofNat s.seconds

def partSeconds (s : Span) : Float := Float.ofNat s.fraction / Float.ofNat perSecond

theorem rounded_wholeSeconds (s : Span) : Rounded s.wholeSeconds s.seconds := by
  refine rounded_ofNat (lt_of_lt_of_le ?_ (pow_le_edge (k := 64) (by omega)))
  exact_mod_cast s.seconds_lt

theorem rounded_partSeconds (s : Span) : Rounded s.partSeconds (s.fraction / perSecond : ℚ) := by
  have hone : (1 : ℚ) ≤ edge greatestExponent := by simpa using pow_le_edge (k := 0) (by omega)
  have hlarge : (2 : ℚ) ^ 30 ≤ edge greatestExponent := pow_le_edge (by omega)
  have hlead : 2 * Binary.leadingBit = 2 ^ 53 := by norm_num [Binary.leadingBit]
  have hlt := s.fraction_lt
  have hunit : (perSecond : ℚ) < 2 ^ 30 := by norm_num [perSecond]
  have hltQ : (s.fraction : ℚ) < perSecond := by exact_mod_cast hlt
  have hnum := rounded_ofNat (n := s.fraction) (by linarith)
  have hden := rounded_ofNat (n := perSecond) (by linarith)
  have hnumEq := hnum.magnitude_natCast (by rw [hlead]; unfold perSecond at hlt; omega)
  have hdenEq := hden.magnitude_natCast (by rw [hlead]; decide)
  have hdiv : (s.fraction : ℚ) / perSecond < 1 := (div_lt_one (by norm_num [perSecond])).2 hltQ
  rw [← hnumEq, ← hdenEq] at hdiv ⊢
  refine rounded_div hnum.toUnsigned hden.toUnsigned ?_ (hdiv.trans_le hone)
  rw [hdenEq]
  norm_num [perSecond]

theorem partSeconds_near (s : Span) :
    |magnitude s.partSeconds - s.fraction / perSecond| ≤ 1 / 2 ^ 54 := by
  have hltQ : (s.fraction : ℚ) < perSecond := by exact_mod_cast s.fraction_lt
  have hdiv : (s.fraction : ℚ) / perSecond < 1 := (div_lt_one (by norm_num [perSecond])).2 hltQ
  have h := s.rounded_partSeconds.near (p := -53) (by decide)
    (by norm_num [Binary.leadingBit]; linarith)
  norm_num at h ⊢
  exact h

theorem partSeconds_lt (s : Span) : magnitude s.partSeconds < 1 := by
  have hnear := abs_le.1 s.partSeconds_near
  have hle : (s.fraction : ℚ) ≤ perSecond - 1 := by
    have hlt : s.fraction + 1 ≤ perSecond := s.fraction_lt
    rw [le_sub_iff_add_le]
    exact_mod_cast hlt
  have hdiv : (s.fraction : ℚ) / perSecond ≤ (perSecond - 1) / perSecond :=
    div_le_div_of_nonneg_right hle (by norm_num [perSecond])
  have hlast : ((perSecond : ℚ) - 1) / perSecond + 1 / 2 ^ 54 < 1 := by norm_num [perSecond]
  linarith

theorem rounded_toSeconds (s : Span) :
    Rounded s.toSeconds (magnitude s.wholeSeconds + magnitude s.partSeconds) := by
  have hlt : (s.seconds : ℚ) < 2 ^ 64 := by exact_mod_cast s.seconds_lt
  have hbinade : (2 * Binary.leadingBit * 2 ^ (11 : Int) : ℚ) = 2 ^ 64 := by
    norm_num [Binary.leadingBit]
  have hwhole := s.rounded_wholeSeconds.near (p := 11) (by decide) (by rwa [hbinade])
  have hnear : magnitude s.wholeSeconds - s.seconds ≤ 2 ^ 10 := by
    refine (abs_le.1 hwhole).2.trans (le_of_eq ?_)
    norm_num
  have hpart := s.partSeconds_lt
  refine rounded_add s.rounded_wholeSeconds.toUnsigned s.rounded_partSeconds.toUnsigned
    (lt_of_lt_of_le ?_ (pow_le_edge (k := 65) (by omega)))
  change magnitude s.wholeSeconds + magnitude s.partSeconds < 2 ^ 65
  linarith

/-- Where the whole seconds are a double, the sum is off by as little as the fraction. -/
theorem seconds_near {s : Span} (h : s.seconds ≤ 2 * Binary.leadingBit) :
    |magnitude s.wholeSeconds + magnitude s.partSeconds - s.nanoseconds / perSecond| ≤
      1 / 2 ^ 54 := by
  have hsum : (s.nanoseconds : ℚ) / perSecond = s.seconds + s.fraction / perSecond := by
    rw [← s.seconds_add_fraction]
    have hunit : (perSecond : ℚ) ≠ 0 := by norm_num [perSecond]
    push_cast
    field_simp
  rw [s.rounded_wholeSeconds.magnitude_natCast h, hsum, add_sub_add_left_eq_sub]
  exact s.partSeconds_near

theorem nanosecondsOf_toSeconds {s : Span} (h : nanosecondsOf s.toSeconds = s.nanoseconds) :
    ofSeconds? s.toSeconds = some s := by
  rw [ofSeconds?_of_unsigned s.rounded_toSeconds.toUnsigned, ofNanoseconds?_eq_some, h]

/-- Below `2 ^ 23` seconds doubles lie closer than nanoseconds. -/
theorem ofSeconds?_toSeconds_of_lt {s : Span} (h : s.seconds < 2 ^ 23) :
    ofSeconds? s.toSeconds = some s := by
  have hlead : 2 * Binary.leadingBit = 2 ^ 53 := by norm_num [Binary.leadingBit]
  have hsum := abs_le.1 (seconds_near (s := s) (by omega))
  have hwhole := s.rounded_wholeSeconds.magnitude_natCast (by omega)
  have hle : (s.seconds : ℚ) ≤ 2 ^ 23 - 1 := by
    rw [le_sub_iff_add_le]
    exact_mod_cast h
  have hbinade : (2 * Binary.leadingBit * 2 ^ (-30 : Int) : ℚ) = 2 ^ 23 := by
    norm_num [Binary.leadingBit]
  have hpart := s.partSeconds_lt
  have hround := abs_le.1 (s.rounded_toSeconds.near (p := -30) (by decide) (by
    rw [hbinade, hwhole]
    linarith))
  refine nanosecondsOf_toSeconds (nanosecondsOf_eq ?_)
  have hscale : magnitude s.toSeconds * perSecond - s.nanoseconds =
      (magnitude s.toSeconds - s.nanoseconds / perSecond) * perSecond := by
    have hunit : (perSecond : ℚ) ≠ 0 := by norm_num [perSecond]
    field_simp
  rw [hscale, abs_lt]
  norm_num [perSecond] at hsum hround ⊢
  constructor <;> linarith

theorem rounds_of_near {x : Float} {r : ℚ} (hx : Unsigned x)
    (hlead : (Binary.ofFloat x).significand ≠ Binary.leadingBit)
    (h : |magnitude x - r| < 2 ^ (Binary.ofFloat x).exponent / 2) : Rounded x r := by
  refine ⟨hx, Near.rounds ?_ fun hm _ => absurd hm hlead⟩
  unfold magnitude at h
  generalize (Binary.ofFloat x).significand = m at *
  generalize (Binary.ofFloat x).exponent = q at *
  have hunit : (0 : ℚ) < 2 ^ q := by positivity
  obtain ⟨hlow, hhigh⟩ := abs_lt.1 h
  have hlow' : (m : ℚ) - 1 / 2 < r / 2 ^ q := by
    rw [lt_div_iff₀ hunit]
    linarith
  have hhigh' : r / 2 ^ q < m + 1 / 2 := by
    rw [div_lt_iff₀ hunit]
    linarith
  exact ⟨hlow'.le, hhigh'.le, fun _ => ⟨hlow', hhigh'⟩⟩

theorem toSeconds_of_whole {x : Float} {s : Span} (hx : Unsigned x)
    (hwhole : magnitude x = s.seconds) (hpart : s.fraction = 0) : s.toSeconds = x := by
  have hround := hx.rounded
  rw [hwhole] at hround
  have heq := s.rounded_wholeSeconds.unique hround
  have hzero : magnitude s.partSeconds = 0 := by
    have h := s.rounded_partSeconds
    rw [hpart, Nat.cast_zero, zero_div] at h
    exact_mod_cast Rounded.magnitude_natCast (n := 0) (by exact_mod_cast h) (Nat.zero_le _)
  have hsum := s.rounded_toSeconds
  rw [hzero, heq, add_zero] at hsum
  exact hsum.unique hx.rounded

/-- A double that is no whole number is below `2 ^ 52`, and is not a power of two unless it is
small. -/
theorem exponent_of_not_whole {x : Float} (h : ∀ n : Nat, magnitude x ≠ n) :
    (Binary.ofFloat x).exponent < 0 ∧
      (-52 ≤ (Binary.ofFloat x).exponent → (Binary.ofFloat x).significand ≠ Binary.leadingBit) := by
  unfold magnitude at h
  generalize (Binary.ofFloat x).significand = m at *
  generalize (Binary.ofFloat x).exponent = q at *
  refine ⟨?_, fun hq hlead => ?_⟩
  · by_contra hq
    refine h (m * 2 ^ q.toNat) ?_
    have hq' : q = (q.toNat : Int) := by omega
    conv_lhs => rw [hq', zpow_natCast]
    push_cast
    rfl
  · refine h (2 ^ (q + 52).toNat) ?_
    have hq' : q = ((q + 52).toNat : Int) - 52 := by omega
    have hm : (m : ℚ) = 2 ^ 52 := by
      rw [hlead]
      norm_num [Binary.leadingBit]
    conv_lhs => rw [hm, hq', zpow_sub₀ (by norm_num), zpow_natCast]
    push_cast
    field_simp
    norm_num

theorem nanosecondsOf_of_whole {x : Float} {n : Nat} (h : magnitude x = n) :
    nanosecondsOf x = n * perSecond := by
  refine nanosecondsOf_eq ?_
  rw [h]
  simp

theorem toSeconds_of_not_whole {x : Float} {s : Span} (hx : Unsigned x)
    (hn : nanosecondsOf x = s.nanoseconds) (hwhole : ∀ n : Nat, magnitude x ≠ n)
    (hs : 2 ^ 23 ≤ s.seconds) : s.toSeconds = x := by
  have hunit : perSecond = 1000000000 := rfl
  have hsplit := s.seconds_add_fraction
  have hnear := abs_le.1 (nanosecondsOf_near x)
  rw [hunit] at hsplit
  rw [hn, hunit] at hnear
  norm_num at hnear
  obtain ⟨hq, hlead⟩ := exponent_of_not_whole hwhole
  have hseconds : (s.seconds * 1000000000 : ℚ) ≤ s.nanoseconds := by
    have hle : s.seconds * 1000000000 ≤ s.nanoseconds := by omega
    exact_mod_cast hle
  have hlow : -29 ≤ (Binary.ofFloat x).exponent := by
    by_contra hlt
    have hle := magnitude_le (x := x) (p := -30) (by omega)
    have hlong : (2 ^ 23 : ℚ) ≤ s.seconds := by exact_mod_cast hs
    norm_num at hle
    linarith
  have hhigh : s.seconds ≤ 2 * Binary.leadingBit := by
    have hle := magnitude_le (x := x) (p := -1) (by omega)
    have hbits : ((2 * Binary.leadingBit : Nat) : ℚ) = 2 ^ 53 := by norm_num [Binary.leadingBit]
    have hbelow : (s.seconds : ℚ) ≤ (2 * Binary.leadingBit : Nat) := by
      norm_num at hle
      rw [hbits]
      linarith
    exact_mod_cast hbelow
  have hsum := abs_le.1 (seconds_near hhigh)
  have hpow : (2 : ℚ) ^ (-29 : Int) ≤ 2 ^ (Binary.ofFloat x).exponent :=
    zpow_le_zpow_right₀ (by norm_num) hlow
  refine s.rounded_toSeconds.unique (rounds_of_near hx (hlead (by omega)) ?_)
  rw [hunit] at hsum
  rw [abs_lt]
  norm_num at hpow hsum
  constructor <;> linarith

/-- From `2 ^ 23` seconds on, where nanoseconds lie closer than doubles, a number of seconds is
found again from the span that it denotes. -/
theorem toSeconds_of_ofSeconds? {x : Float} {s : Span} (h : ofSeconds? x = some s)
    (hs : 2 ^ 23 ≤ s.seconds) : s.toSeconds = x := by
  have hunit : perSecond = 1000000000 := rfl
  have hsplit := s.seconds_add_fraction
  have hfraction := s.fraction_lt
  rw [hunit] at hsplit hfraction
  obtain ⟨hx, hn⟩ := unsigned_of_ofSeconds? h (by omega)
  by_cases hwhole : ∃ n : Nat, magnitude x = n
  · obtain ⟨n, hmagnitude⟩ := hwhole
    have hexact := hn.symm.trans (nanosecondsOf_of_whole hmagnitude)
    rw [hunit] at hexact
    have hseconds : s.seconds = n := by omega
    exact toSeconds_of_whole hx (hseconds ▸ hmagnitude) (by omega)
  · exact toSeconds_of_not_whole hx hn (not_exists.1 hwhole) hs

theorem ofSeconds?_toSeconds_of_whole {s : Span} (hpart : s.fraction = 0)
    (h : s.seconds ≤ 2 * Binary.leadingBit) : ofSeconds? s.toSeconds = some s := by
  have hwhole := s.rounded_wholeSeconds.magnitude_natCast h
  have heq := toSeconds_of_whole s.rounded_wholeSeconds.toUnsigned hwhole hpart
  have hsplit := s.seconds_add_fraction
  refine nanosecondsOf_toSeconds (nanosecondsOf_eq ?_)
  rw [heq, hwhole, ← hsplit, hpart]
  simp

/-- A span comes back from its seconds if some number of seconds denotes it. -/
theorem ofSeconds?_toSeconds_iff {s : Span} :
    ofSeconds? s.toSeconds = some s ↔ ∃ x, ofSeconds? x = some s := by
  refine ⟨fun h => ⟨_, h⟩, fun ⟨x, hx⟩ => ?_⟩
  rcases Nat.lt_or_ge s.seconds (2 ^ 23) with hlt | hge
  · exact ofSeconds?_toSeconds_of_lt hlt
  · rw [toSeconds_of_ofSeconds? hx hge]
    exact hx

theorem lt_exponent_toSeconds_iff {s : Span} :
    11 < (Binary.ofFloat s.toSeconds).exponent ↔ 2 ^ 64 - 2 ^ 10 ≤ s.seconds := by
  have hedge : edge 11 = 2 ^ 64 - 2 ^ 10 := by
    norm_num [edge, quarterUnit, Binary.leadingBit]
  have hwhole : 11 < (Binary.ofFloat s.wholeSeconds).exponent ↔ 2 ^ 64 - 2 ^ 10 ≤ s.seconds := by
    rw [← edge_le_iff (inFormat_ofFloat _) s.rounded_wholeSeconds.rounds (by decide), hedge]
    norm_num
  rw [← hwhole, ← edge_le_iff (inFormat_ofFloat _) s.rounded_toSeconds.rounds (by decide), hedge]
  constructor
  · intro hle
    by_contra hlt
    have hreach := magnitude_le (Int.not_lt.1 hlt)
    have hpart := s.partSeconds_lt
    norm_num at hreach hle
    linarith
  · intro hlt
    have hreach := le_magnitude (by decide) hlt
    have hpart := magnitude_nonneg s.partSeconds
    norm_num at hreach ⊢
    linarith

theorem nanosecondsOf_lt_iff (x : Float) :
    nanosecondsOf x < 0x10000000000000000 * 1000000000 ↔ (Binary.ofFloat x).exponent ≤ 11 := by
  have hunit : perSecond = 1000000000 := rfl
  have hnear := abs_le.1 (nanosecondsOf_near x)
  rw [hunit] at hnear
  norm_num at hnear
  constructor
  · intro hlt
    by_contra hgt
    have hle := le_magnitude (by decide) (Int.not_le.1 hgt)
    have hlt' : (nanosecondsOf x : ℚ) + 1 ≤ 0x10000000000000000 * 1000000000 := by
      exact_mod_cast hlt
    norm_num at hle
    linarith
  · intro hle
    have hreach := magnitude_le hle
    have hlt : (nanosecondsOf x : ℚ) < 0x10000000000000000 * 1000000000 := by
      norm_num at hreach
      linarith
    exact_mod_cast hlt

/-- Only spans that round to `2 ^ 64` seconds are lost. -/
theorem ofSeconds?_toSeconds_eq_none_iff {s : Span} :
    ofSeconds? s.toSeconds = none ↔ 2 ^ 64 - 2 ^ 10 ≤ s.seconds := by
  rw [← lt_exponent_toSeconds_iff, ofSeconds?_of_unsigned s.rounded_toSeconds.toUnsigned,
    ← Int.not_le, ← nanosecondsOf_lt_iff]
  simp [ofNanoseconds?]

end Span

end ReplyCache
