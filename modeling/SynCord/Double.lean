import Mathlib.Algebra.Order.Field.Power
import Mathlib.Algebra.Order.Field.Rat
import Mathlib.Data.Rat.Floor
import Mathlib.Tactic.Positivity

/-!
# SynCord.Double

Numbers in double precision, natural numbers first and then fractions. A double has 53 bits of
significand; a number with more bits is rounded to the nearest double, and to the even significand
if two are as near. Signs and the bounds of the exponent are left out.

* `round_of_isDouble` — what has 53 significant bits or fewer is not changed.
* `Value` — the results of divisions, with infinity and what is no number.
* `roundFraction_pos` — what is positive stays so.
-/

namespace SynCord
namespace Double

/-- Nearest multiple of `2 ^ s`; `q` is the significand before rounding and `r` what is cut off. -/
def nearest (n s : Nat) : Nat :=
  let q := n >>> s
  let r := n - q <<< s
  if 1 <<< s < 2 * r ∨ (2 * r = 1 <<< s ∧ q % 2 = 1) then (q + 1) <<< s else q <<< s

def round (n : Nat) : Nat := if n < 1 <<< 53 then n else nearest n (n.log2 - 52)

/-- The sum of two doubles. -/
def add (x y : Nat) : Nat := round (x + y)

def IsDouble (n : Nat) : Prop := ∃ m e, m < 1 <<< 53 ∧ n = m <<< e

theorem nearest_of_dvd {n s : Nat} (h : 1 <<< s ∣ n) : nearest n s = n := by
  obtain ⟨q, rfl⟩ := h
  have hpos : 0 < 1 <<< s := by
    rw [Nat.shiftLeft_eq, Nat.one_mul]
    exact Nat.two_pow_pos s
  have hq : (1 <<< s * q) >>> s = q := by
    rw [Nat.shiftRight_eq_div_pow, ← Nat.one_mul (2 ^ s), ← Nat.shiftLeft_eq,
      Nat.mul_div_cancel_left q hpos]
  have hback : q <<< s = 1 <<< s * q := by
    rw [Nat.shiftLeft_eq, Nat.shiftLeft_eq, Nat.one_mul, Nat.mul_comm]
  have hcut : ¬ (1 <<< s < 2 * 0 ∨ (2 * 0 = 1 <<< s ∧ q % 2 = 1)) := by omega
  simp only [nearest, hq, hback, Nat.sub_self]
  rw [if_neg hcut]

theorem round_of_isDouble {n : Nat} (h : IsDouble n) : round n = n := by
  obtain ⟨m, e, hm, rfl⟩ := h
  rw [round]
  split
  · rfl
  · rename_i hlarge
    apply nearest_of_dvd
    rw [Nat.shiftLeft_eq, Nat.one_mul] at hm
    rw [Nat.shiftLeft_eq, Nat.shiftLeft_eq, Nat.one_mul]
    refine Nat.dvd_trans (Nat.pow_dvd_pow 2 ?_) (Nat.dvd_mul_left _ _)
    have hm0 : m ≠ 0 := by
      rintro rfl
      simp at hlarge
    have hlog : (m * 2 ^ e).log2 < 53 + e := by
      rw [Nat.log2_lt (Nat.mul_ne_zero hm0 (Nat.pos_iff_ne_zero.1 (Nat.two_pow_pos e))),
        Nat.pow_add]
      exact Nat.mul_lt_mul_of_pos_right hm (Nat.two_pow_pos e)
    omega

theorem isDouble_of_lt {n : Nat} (h : n < 1 <<< 53) : IsDouble n := ⟨n, 0, h, rfl⟩

theorem round_eq_zero {n : Nat} : round n = 0 ↔ n = 0 := by
  refine ⟨fun h => ?_, fun h => by rw [h]; rfl⟩
  rw [round] at h
  split at h
  · exact h
  · rename_i hlarge
    have hlog : n.log2 - 52 ≤ n.log2 := Nat.sub_le ..
    have hn : n ≠ 0 := by
      rintro rfl
      exact hlarge (Nat.two_pow_pos 53)
    have hq : 0 < n >>> (n.log2 - 52) := by
      rw [Nat.shiftRight_eq_div_pow]
      exact Nat.div_pos ((Nat.pow_le_pow_right (by decide) hlog).trans (Nat.log2_self_le hn))
        (Nat.two_pow_pos _)
    have hpos : ∀ {k s : Nat}, 0 < k → k <<< s ≠ 0 := by
      intro k s hk
      rw [Nat.shiftLeft_eq]
      exact Nat.mul_ne_zero (Nat.pos_iff_ne_zero.1 hk) (Nat.pos_iff_ne_zero.1 (Nat.two_pow_pos s))
    rw [nearest] at h
    split at h
    · exact absurd h (hpos (Nat.succ_pos _))
    · exact absurd h (hpos hq)

/-! ## Fractions -/

/-- The nearest integer, and the even one of two. -/
def nearestEven (x : ℚ) : Int :=
  let q := x.floor
  let r := x - q
  if 1 < 2 * r ∨ (2 * r = 1 ∧ q % 2 = 1) then q + 1 else q

/-- `x * 2 ^ k` -/
def scale (x : ℚ) : Int → ℚ
  | .ofNat k => x * (1 <<< k : Nat)
  | .negSucc k => x / (1 <<< (k + 1) : Nat)

/-- The place of the first bit. -/
def exponent (x : ℚ) : Int :=
  let e : Int := (x.num.toNat.log2 : Int) - x.den.log2
  if scale 1 e ≤ x then e else e - 1

def roundFraction (x : ℚ) : ℚ :=
  if x ≤ 0 then 0
  else scale (nearestEven (scale x (52 - exponent x))) (exponent x - 52)

example : roundFraction (1 / 3) = 6004799503160661 / 18014398509481984 := by decide +kernel

/-- A double that is not negative. -/
inductive Value where
  | num (x : ℚ)
  | inf
  | nan
  deriving DecidableEq

namespace Value

def add : Value → Value → Value
  | .num x, .num y => .num (roundFraction (x + y))
  | .nan, _ | _, .nan => .nan
  | _, _ => .inf

def mul : Value → Value → Value
  | .num x, .num y => .num (roundFraction (x * y))
  | .nan, _ | _, .nan => .nan
  | .inf, .num x | .num x, .inf => if x = 0 then .nan else .inf
  | .inf, .inf => .inf

def div : Value → Value → Value
  | .num x, .num y =>
    if y = 0 then if x = 0 then .nan else .inf else .num (roundFraction (x / y))
  | .nan, _ | _, .nan => .nan
  | .inf, .num _ => .inf
  | .num _, .inf => .num 0
  | .inf, .inf => .nan

end Value

theorem scale_eq (x : ℚ) (k : Int) : scale x k = x * 2 ^ k := by
  cases k with
  | ofNat k => simp [scale, Nat.shiftLeft_eq]
  | negSucc k =>
    rw [scale, zpow_negSucc, Nat.shiftLeft_eq, Nat.one_mul, div_eq_mul_inv]
    norm_cast

theorem zpow_exponent_le {x : ℚ} (h : 0 < x) : 2 ^ exponent x ≤ x := by
  rw [exponent]
  split
  · rename_i hle
    rwa [scale_eq, one_mul] at hle
  · have hnum : 0 < x.num := Rat.num_pos.2 h
    have hp : ((2 ^ x.num.toNat.log2 : Nat) : ℚ) ≤ (x.num.toNat : ℚ) := by
      exact_mod_cast Nat.log2_self_le (by omega)
    have hq : (x.den : ℚ) ≤ ((2 ^ (x.den.log2 + 1) : Nat) : ℚ) := by
      exact_mod_cast Nat.lt_log2_self.le
    have hx : x = (x.num.toNat : ℚ) / x.den := by
      have hcast : (x.num.toNat : ℚ) = (x.num : ℚ) := by
        exact_mod_cast congrArg (Int.cast : Int → ℚ) (Int.toNat_of_nonneg hnum.le)
      rw [hcast, Rat.num_div_den]
    have hden : (0 : ℚ) < x.den := by exact_mod_cast x.den_pos
    conv_rhs => rw [hx]
    rw [le_div_iff₀ hden]
    calc (2 : ℚ) ^ ((x.num.toNat.log2 : Int) - x.den.log2 - 1) * x.den
        ≤ 2 ^ ((x.num.toNat.log2 : Int) - x.den.log2 - 1) * ((2 ^ (x.den.log2 + 1) : Nat) : ℚ) := by
          exact mul_le_mul_of_nonneg_left hq (by positivity)
      _ = ((2 ^ x.num.toNat.log2 : Nat) : ℚ) := by
          push_cast
          rw [← zpow_natCast, ← zpow_natCast, ← zpow_add₀ (by norm_num)]
          congr 1
          push_cast
          omega
      _ ≤ (x.num.toNat : ℚ) := hp

theorem nearestEven_pos {x : ℚ} (h : 1 ≤ x) : 0 < nearestEven x := by
  have hfloor : 1 ≤ x.floor := Rat.le_floor_iff.2 (by exact_mod_cast h)
  rw [nearestEven]
  split
  · omega
  · omega

/-- What is positive does not vanish. -/
theorem roundFraction_pos {x : ℚ} (h : 0 < x) : 0 < roundFraction x := by
  have hlarge : 1 ≤ scale x (52 - exponent x) := by
    rw [scale_eq]
    calc (1 : ℚ) ≤ 2 ^ (52 : Int) := by norm_num
      _ = 2 ^ exponent x * 2 ^ (52 - exponent x) := by
        rw [← zpow_add₀ (by norm_num)]
        congr 1
        omega
      _ ≤ x * 2 ^ (52 - exponent x) :=
        mul_le_mul_of_nonneg_right (zpow_exponent_le h) (by positivity)
  have hpos : (0 : ℚ) < nearestEven (scale x (52 - exponent x)) := by
    exact_mod_cast nearestEven_pos hlarge
  rw [roundFraction, if_neg (not_le.2 h), scale_eq]
  exact mul_pos hpos (by positivity)

theorem roundFraction_nonneg (x : ℚ) : 0 ≤ roundFraction x := by
  by_cases h : x ≤ 0
  · rw [roundFraction, if_pos h]
  · exact (roundFraction_pos (not_le.1 h)).le

end Double
end SynCord
