import Criteria.Decimal.Shortest
import Criteria.Proofs.Decimal.Numeral
import Mathlib.Algebra.Order.Group.Nat
import Mathlib.Order.Monotone.Basic
import Mathlib.Tactic.FieldSimp
import Mathlib.Tactic.Linarith
import Mathlib.Tactic.NormNum

/-!
# Spans of neighbouring floats

The floats without sign, numbered in the order of their bits, have spans that follow one another:
each span ends where the next one starts, and of two neighbours exactly one owns the common end.

**Results.**
* `bound_succ`: the span of a float ends where the span of the next one starts.
* `owns_unique`: no number lies in the spans of two floats.
* `owns_shortest`: the shortest decimal of a span lies in it.
-/

namespace Criteria
namespace Decimal
namespace Span

def mantissa (biased fraction : Nat) : Nat :=
  if biased = 0 then fraction else fraction + leadingBit

def exponent (biased : Nat) : ℤ :=
  ((if biased = 0 then 1 else biased : Nat) : ℤ) - 1077

/-- How far the lower end is away, in quarters of the last bit. -/
def margin (biased fraction : Nat) : Nat :=
  if fraction = 0 ∧ 1 < biased then 1 else 2

/-- The span of the float with the given number. -/
def ofNumber (c : Nat) : Span :=
  ofBits (c / leadingBit) (c % leadingBit)

/-- A number of units of a span. -/
def scaled (s : Span) (n : Nat) : ℚ :=
  n / 10 ^ s.places

/-- The lower end of a span. -/
def bound (c : Nat) : ℚ :=
  (ofNumber c).scaled (ofNumber c).low

/-- The span of the float with the given number holds a rational number; its ends, if the number
of the float is even. -/
def Owns (c : Nat) (t : ℚ) : Prop :=
  bound c ≤ t ∧ t ≤ bound (c + 1) ∧ (c % 2 ≠ 0 → bound c < t ∧ t < bound (c + 1))

theorem leadingBit_eq : leadingBit = 4503599627370496 := rfl

/-- One unit is a power of two. -/
theorem scaled_unit (n : Nat) (e : ℤ) :
    ((n * (Nat.pow 2 e.toNat * Nat.pow 5 (-e).toNat) : ℕ) : ℚ) / 10 ^ (-e).toNat = n * 2 ^ e := by
  cases e with
  | ofNat k => simp
  | negSucc k =>
    have hten : (10 : ℚ) ^ (k + 1) = 2 ^ (k + 1) * 5 ^ (k + 1) := by
      rw [← mul_pow]
      norm_num
    simp only [Int.toNat_negSucc, Int.neg_negSucc, Int.toNat_natCast, Nat.pow_eq, pow_zero, one_mul,
      zpow_negSucc, Nat.cast_mul, Nat.cast_pow, Nat.cast_ofNat, hten]
    field_simp

theorem scaled_low (b f : Nat) : (ofBits b f).scaled (ofBits b f).low =
    ((4 * mantissa b f - margin b f : ℕ) : ℚ) * 2 ^ exponent b :=
  scaled_unit _ _

theorem scaled_high (b f : Nat) : (ofBits b f).scaled (ofBits b f).high =
    ((4 * mantissa b f + 2 : ℕ) : ℚ) * 2 ^ exponent b :=
  scaled_unit _ _

theorem bound_succ (c : Nat) : (ofNumber c).scaled (ofNumber c).high = bound (c + 1) := by
  rw [bound, ofNumber, ofNumber, scaled_low, scaled_high, leadingBit_eq]
  generalize hb : c / 4503599627370496 = b
  generalize hf : c % 4503599627370496 = f
  by_cases hlast : f + 1 < 4503599627370496
  · have hb' : (c + 1) / 4503599627370496 = b := by omega
    have hf' : (c + 1) % 4503599627370496 = f + 1 := by omega
    rw [hb', hf']
    have hsame : 4 * mantissa b (f + 1) - margin b (f + 1) = 4 * mantissa b f + 2 := by
      simp only [mantissa, margin]
      split <;> simp <;> omega
    rw [hsame]
  · have hb' : (c + 1) / 4503599627370496 = b + 1 := by omega
    have hf' : (c + 1) % 4503599627370496 = 0 := by omega
    have hf : f = 4503599627370495 := by omega
    rw [hb', hf', hf]
    -- The next float starts a new power of two, with a unit of twice the size; only the first
    -- power shares its unit with the floats below it.
    by_cases hb0 : b = 0
    · subst hb0
      norm_num [mantissa, margin, exponent, leadingBit_eq]
    · have hexponent : exponent (b + 1) = exponent b + 1 := by
        simp [exponent, hb0]
        omega
      have hpos : 0 < b := by omega
      rw [hexponent, zpow_add_one₀ (by norm_num)]
      simp [mantissa, margin, hb0, hpos, leadingBit_eq]
      ring

theorem bound_lt_succ (c : Nat) : bound c < bound (c + 1) := by
  rw [← bound_succ, bound, ofNumber, scaled_low, scaled_high]
  have hpow : (0 : ℚ) < 2 ^ exponent (c / leadingBit) := zpow_pos (by norm_num) _
  refine mul_lt_mul_of_pos_right ?_ hpow
  exact_mod_cast (by omega : 4 * mantissa (c / leadingBit) (c % leadingBit) -
    margin (c / leadingBit) (c % leadingBit) <
      4 * mantissa (c / leadingBit) (c % leadingBit) + 2)

theorem bound_strictMono : StrictMono bound :=
  strictMono_nat_of_lt_succ bound_lt_succ

theorem bound_zero : bound 0 = 0 := by
  rw [bound, ofNumber, scaled_low]
  simp [mantissa, margin]

/-- A number that lies in the spans of two floats would be the end of both, and one of them does
not own its ends. -/
theorem owns_unique {c c' : Nat} {t : ℚ} (h : Owns c t) (h' : Owns c' t) : c = c' := by
  have hle {c c' : Nat} (h : Owns c t) (h' : Owns c' t) : ¬ c < c' := by
    intro hlt
    have hbetween : bound (c + 1) = bound c' :=
      le_antisymm (bound_strictMono.monotone hlt) (h'.1.trans h.2.1)
    have hnext : c + 1 = c' := bound_strictMono.injective hbetween
    by_cases hc : c % 2 = 0
    · have hopen := h'.2.2 (by omega)
      have := h.2.1
      rw [hnext] at this
      linarith
    · have hopen := h.2.2 hc
      have := h'.1
      rw [← hnext] at this
      linarith
  have := hle h h'
  have := hle h' h
  omega

theorem closed_iff (c : Nat) : (ofNumber c).closed = true ↔ c % 2 = 0 := by
  show decide (mantissa (c / leadingBit) (c % leadingBit) % 2 = 0) = true ↔ _
  rw [decide_eq_true_iff, mantissa, leadingBit_eq]
  split <;> omega

/-- What a span holds in its units is owned by its float. -/
theorem owns_of_holds {c n : Nat} (h : (ofNumber c).holds n = true) :
    Owns c ((ofNumber c).scaled n) := by
  have hle {m m' : Nat} (hm : m ≤ m') : (ofNumber c).scaled m ≤ (ofNumber c).scaled m' := by
    unfold scaled
    gcongr
  have hlt {m m' : Nat} (hm : m < m') : (ofNumber c).scaled m < (ofNumber c).scaled m' := by
    unfold scaled
    gcongr
  rw [Owns, ← bound_succ]
  unfold holds at h
  split at h
  · next hc =>
    simp at h
    exact ⟨hle h.1, hle h.2, fun hodd => absurd ((closed_iff c).1 hc) hodd⟩
  · simp at h
    exact ⟨hle h.1.le, hle h.2.le, fun _ => ⟨hlt h.1, hlt h.2⟩⟩

theorem holds_value (c : Nat) : (ofNumber c).holds (ofNumber c).value = true := by
  have hclosed := closed_iff c
  obtain ⟨unit, hunit, hlow, hvalue, hhigh⟩ : ∃ unit, 0 < unit ∧
      (ofNumber c).low = (4 * mantissa (c / leadingBit) (c % leadingBit) -
        margin (c / leadingBit) (c % leadingBit)) * unit ∧
      (ofNumber c).value = 4 * mantissa (c / leadingBit) (c % leadingBit) * unit ∧
      (ofNumber c).high = (4 * mantissa (c / leadingBit) (c % leadingBit) + 2) * unit :=
    ⟨_, Nat.mul_pos (Nat.pow_pos (by norm_num)) (Nat.pow_pos (by norm_num)), rfl, rfl, rfl⟩
  unfold holds
  split
  · rw [hlow, hvalue, hhigh, Bool.and_eq_true, decide_eq_true_iff, decide_eq_true_iff]
    constructor
    · exact Nat.mul_le_mul_right _ (Nat.sub_le ..)
    · exact Nat.mul_le_mul_right _ (Nat.le_add_right ..)
  · next hopen =>
    -- An odd mantissa is positive, so the lower end is below the value.
    have hodd : mantissa (c / leadingBit) (c % leadingBit) ≠ 0 := by
      rw [hclosed] at hopen
      rw [mantissa, leadingBit_eq]
      split <;> omega
    have hmargin : 0 < margin (c / leadingBit) (c % leadingBit) := by
      unfold margin
      split <;> omega
    rw [hlow, hvalue, hhigh, Bool.and_eq_true, decide_eq_true_iff, decide_eq_true_iff]
    constructor
    · exact Nat.mul_lt_mul_of_pos_right (by omega) hunit
    · exact Nat.mul_lt_mul_of_pos_right (by omega) hunit

theorem value_onGrid (s : Span) (n k : Nat) :
    Decimal.value ⟨n, (k : ℤ) - s.places⟩ = s.scaled (n * Nat.pow 10 k) := by
  rw [Decimal.value, scaled, zpow_sub₀ (by norm_num), zpow_natCast, zpow_natCast]
  simp only [Nat.pow_eq]
  push_cast
  ring

/-- The search for a short decimal stays within what the span holds. -/
theorem exists_shorten {s : Span} (h : s.holds s.value = true) (k : Nat) :
    ∃ n, s.holds n = true ∧ (s.shorten k).value = s.scaled n := by
  induction k with
  | zero =>
    have hgrid := s.value_onGrid s.value 0
    rw [Nat.cast_zero, zero_sub, Nat.pow_eq, pow_zero, mul_one] at hgrid
    exact ⟨s.value, h, hgrid⟩
  | succ k ih =>
    have hgrid (n : Nat) := s.value_onGrid n (k + 1)
    dsimp only [shorten]
    split
    · exact ih
    · next hbelow _ => exact ⟨_, hbelow, hgrid _⟩
    · next _ habove => exact ⟨_, habove, hgrid _⟩
    · next hbelow habove =>
      split
      · exact ⟨_, hbelow, hgrid _⟩
      · exact ⟨_, habove, hgrid _⟩

theorem owns_shortest (c : Nat) : Owns c (ofNumber c).shortest.value := by
  obtain ⟨n, hn, hvalue⟩ := exists_shorten (holds_value c) (Nat.toDigits 10 (ofNumber c).high).length
  rw [shortest, hvalue]
  exact owns_of_holds hn

end Span
end Decimal
end Criteria
