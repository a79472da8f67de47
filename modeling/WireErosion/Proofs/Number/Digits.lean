import Mathlib.Tactic.IntervalCases
import Mathlib.Tactic.NormNum
import WireErosion.Number.Decimal

/-!
# Decimal digits

The digits of a natural number do not start with a zero, unless it is the only one
(`Decimal.isLeading_digits`), and there are as many of them as powers of ten up to the number
(`Decimal.length_digits`).
-/

namespace WireErosion.Decimal

/-! ## Characters -/

/-- Digits of ASCII. -/
def AreDigits (ds : List Char) : Prop := ∀ c ∈ ds, c.isDigit = true

/-- Digits of a positive number, the first of which is not zero. -/
structure IsLeading (ds : List Char) : Prop where
  /-- All characters are digits. -/
  digits : AreDigits ds
  /-- There is a first digit, and it is not zero. -/
  first : ∃ c cs, ds = c :: cs ∧ c ≠ '0'

theorem areDigits_digits (n : ℕ) : AreDigits (digits n) :=
  fun _ hc => Nat.isDigit_of_mem_toDigits (by norm_num) le_rfl hc

theorem areDigits_replicate (n : ℕ) : AreDigits (List.replicate n '0') :=
  fun _ hc => List.eq_of_mem_replicate hc ▸ rfl

theorem AreDigits.append {ds es : List Char} (hds : AreDigits ds) (hes : AreDigits es) :
    AreDigits (ds ++ es) :=
  List.forall_mem_append.mpr ⟨hds, hes⟩

theorem isLeading_digits {n : ℕ} (hn : 0 < n) : IsLeading (digits n) := by
  refine ⟨areDigits_digits n, ?_⟩
  induction n using Nat.strong_induction_on with
  | _ n ih =>
      rw [digits, Nat.toDigits_eq_if (by norm_num)]
      split
      next hlt =>
        refine ⟨_, [], rfl, ?_⟩
        interval_cases n <;> decide
      next hle =>
        obtain ⟨c, cs, hcs, hc⟩ := ih (n / 10) (by omega) (by omega)
        rw [digits] at hcs
        exact ⟨c, cs ++ [(n % 10).digitChar], by rw [hcs, List.cons_append], hc⟩

/-! ## How many there are -/

theorem length_digits_le {n k : ℕ} (hk : 0 < k) (hn : n < 10 ^ k) : (digits n).length ≤ k :=
  (Nat.length_toDigits_le_iff (by norm_num) hk).mpr hn

theorem lt_pow_length_digits (n : ℕ) : n < 10 ^ (digits n).length :=
  (Nat.length_toDigits_le_iff (by norm_num) Nat.length_toDigits_pos).mp le_rfl

theorem length_digits {n k : ℕ} (hlow : 10 ^ k ≤ n) (hhigh : n < 10 ^ (k + 1)) :
    (digits n).length = k + 1 := by
  refine le_antisymm (length_digits_le k.succ_pos hhigh) ?_
  have hlt : 10 ^ k < 10 ^ (digits n).length := hlow.trans_lt (lt_pow_length_digits n)
  exact (Nat.pow_lt_pow_iff_right (by norm_num)).mp hlt

theorem exists_length_digits {n : ℕ} (hn : 0 < n) :
    ∃ k, (digits n).length = k + 1 ∧ 10 ^ k ≤ n ∧ n < 10 ^ (k + 1) := by
  obtain ⟨k, hk⟩ := Nat.exists_eq_add_of_lt (Nat.length_toDigits_pos (b := 10) (n := n))
  rw [zero_add] at hk
  change (digits n).length = k + 1 at hk
  refine ⟨k, hk, ?_, hk ▸ lt_pow_length_digits n⟩
  rcases Nat.eq_zero_or_pos k with rfl | hpos
  · exact hn
  · by_contra hlt
    have hshort := length_digits_le hpos (not_le.mp hlt)
    omega

end WireErosion.Decimal
