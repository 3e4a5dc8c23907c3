import Mathlib.Data.List.TakeWhile
import Mathlib.Tactic.IntervalCases
import ReplyCache.Proofs.Decimal.Interval

namespace ReplyCache

namespace Decimal

theorem digitChar_ne_zero {n : Nat} (hpos : 0 < n) (hlt : n < 10) : n.digitChar ≠ '0' := by
  interval_cases n <;> decide

theorem toDigits_head {n : Nat} (hn : 0 < n) :
    ∃ d ds, Nat.toDigits 10 n = d :: ds ∧ d ≠ '0' := by
  induction n using Nat.strong_induction_on with
  | _ n ih =>
      rw [Nat.toDigits_eq_if (by omega)]
      split
      · rename_i hlt
        exact ⟨_, [], rfl, digitChar_ne_zero hn hlt⟩
      · obtain ⟨d, ds, hds, hd⟩ := ih (n / 10) (by omega) (by omega)
        exact ⟨d, _, by rw [hds, List.cons_append], hd⟩

theorem eq_append_replicate (cs : List Char) :
    ∃ n, cs = (cs.reverse.dropWhile (· = '0')).reverse ++ List.replicate n '0' := by
  have hsplit := List.takeWhile_append_dropWhile (p := (· = '0')) (l := cs.reverse)
  have hzeros : cs.reverse.takeWhile (· = '0') =
      List.replicate (cs.reverse.takeWhile (· = '0')).length '0' :=
    List.eq_replicate_of_mem fun c hc => by simpa using List.mem_takeWhile_imp hc
  refine ⟨(cs.reverse.takeWhile (· = '0')).length, ?_⟩
  have hrev := congrArg List.reverse hsplit
  rw [List.reverse_append, List.reverse_reverse, hzeros, List.reverse_replicate] at hrev
  exact hrev.symm

theorem digits_head {c : Nat} (hc : 0 < c) (k : Int) :
    ∃ d ds, (digits c k).1 = d :: ds ∧ d ≠ '0' := by
  obtain ⟨n, hn⟩ := eq_append_replicate (Nat.toDigits 10 c)
  obtain ⟨d, ds, hds, hd⟩ := toDigits_head hc
  change ∃ d ds, ((Nat.toDigits 10 c).reverse.dropWhile (· = '0')).reverse = d :: ds ∧ d ≠ '0'
  cases hstrip : ((Nat.toDigits 10 c).reverse.dropWhile (· = '0')).reverse with
  | nil =>
      rw [hstrip, List.nil_append, hds] at hn
      have hmem : d ∈ List.replicate n '0' := hn ▸ List.mem_cons_self
      exact (hd (List.eq_of_mem_replicate hmem)).elim
  | cons e es =>
      rw [hstrip, hds, List.cons_append] at hn
      exact ⟨e, es, rfl, (List.cons.inj hn).1 ▸ hd⟩

theorem isDigit_of_mem_digits {c : Nat} {k : Int} {d : Char} (h : d ∈ (digits c k).1) :
    d.isDigit = true := by
  obtain ⟨n, hn⟩ := eq_append_replicate (Nat.toDigits 10 c)
  apply Nat.isDigit_of_mem_toDigits (b := 10) (n := c) (by omega) (by omega)
  rw [hn]
  exact List.mem_append_left _ h

/-- The digits stand for the decimal when the first of them has the exponent beside them. -/
theorem value_digits (c : Nat) (k : Int) :
    value (Nat.ofDigitChars 10 (digits c k).1 0) ((digits c k).2 + 1 - (digits c k).1.length) =
      value c k := by
  obtain ⟨n, hn⟩ := eq_append_replicate (Nat.toDigits 10 c)
  have hlen := congrArg List.length hn
  have hc : 10 ^ n * Nat.ofDigitChars 10 (digits c k).1 0 = c := by
    rw [← Nat.ofDigitChars_replicate_zero, ← Nat.ofDigitChars_append]
    change Nat.ofDigitChars 10
      (((Nat.toDigits 10 c).reverse.dropWhile (· = '0')).reverse ++ List.replicate n '0') 0 = c
    rw [← hn, Nat.ofDigitChars_ten_toDigits]
  rw [List.length_append, List.length_replicate] at hlen
  have hexp : (digits c k).2 + 1 - (digits c k).1.length = k + n := by
    change k + (Nat.toDigits 10 c).length - 1 + 1 -
      (((Nat.toDigits 10 c).reverse.dropWhile (· = '0')).reverse.length : Int) = k + n
    omega
  rw [hexp]
  simp only [value]
  rw [zpow_add₀ (by norm_num), zpow_natCast]
  nth_rewrite 2 [← hc]
  push_cast
  ring

end Decimal

end ReplyCache
