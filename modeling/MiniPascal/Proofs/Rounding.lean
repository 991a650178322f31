import Mathlib.Algebra.Order.Field.Rat
import Mathlib.Tactic.Linarith
import Mathlib.Tactic.Ring
import Mathlib.Tactic.FieldSimp
import Mathlib.Tactic.Positivity
import MiniPascal.Decimal.Shortest

/-!
# Decimals that round to a double

A decimal rounds to the nearest double, and of two equally near ones to the one whose bits are even.
The shortest decimal of a double rounds to that double.
-/

namespace MiniPascal

open Float.Model (UnpackedFloat)
open Float.Model.UnpackedFloat (unpackExponent unpackMantissa)

/-- The number that a decimal denotes. -/
def Decimal.value (d : Decimal) : ℚ := d.digits * 10 ^ d.exponent

namespace Decimal

/-- The size of a number. An infinity stands where the next double would be. -/
def unpackedSize : UnpackedFloat → ℚ
  | .finite _ mantissa exponent _ => mantissa * 2 ^ exponent
  | .infinity _ => 2 ^ 1024
  | .zero _ | .notANumber => 0

/-- The number that a double stands for, without its sign. -/
def size (x : Float) : ℚ := unpackedSize x.toModel.unpack

/-- `q` rounds to `x` or to its opposite: to the nearest, and with two of them to the even one. -/
structure RoundsTo (q : ℚ) (x : Float) : Prop where
  finite : x.isFinite = true
  nearest (y : Float) : |q - size x| ≤ |q - size y|
  even (y : Float) : |q - size x| = |q - size y| → size x ≠ size y → x.toBits.toNat % 2 = 0

/-! ## The bits of a double -/

theorem toNat_unpackExponent (b : BitVec 64) :
    (@unpackExponent .binary64 b).toNat = b.toNat / Binary.hidden % 2048 := by
  change (BitVec.extractLsb 62 52 b).toNat = _
  rw [BitVec.extractLsb_toNat, Nat.shiftRight_eq_div_pow]
  rfl

theorem toNat_unpackMantissa (b : BitVec 64) :
    (@unpackMantissa .binary64 b).toNat = b.toNat % Binary.hidden := by
  change (BitVec.extractLsb 51 0 b).toNat = _
  rw [BitVec.extractLsb_toNat]
  rfl

theorem unpackExponent_ne {b : BitVec 64} (h : (UnpackedFloat.unpack .binary64 b).isFinite = true) :
    @unpackExponent .binary64 b ≠ -1#11 := by
  intro he
  unfold UnpackedFloat.unpack at h
  rw [if_pos he] at h
  by_cases hm : @unpackMantissa .binary64 b = 0#52
  · rw [if_pos hm] at h
    cases h
  · rw [if_neg hm] at h
    cases h

namespace Binary

def value (b : Binary) : ℚ := b.mantissa * 2 ^ b.exponent

/-- What the bits of a double give: all 53 bits of the mantissa are used unless the exponent is the
smallest one. -/
structure Formed (b : Binary) : Prop where
  mantissa_lt : b.mantissa < 2 * hidden
  exponent_ge : -1074 ≤ b.exponent
  full : -1074 < b.exponent → hidden ≤ b.mantissa

theorem formed_ofBits (bits : UInt64) : (ofBits bits).Formed := by
  have hfraction : bits.toNat % hidden < hidden := Nat.mod_lt _ (by decide)
  unfold ofBits
  dsimp only
  split
  · exact ⟨Nat.lt_of_lt_of_le hfraction (by decide), Int.le_refl _, fun h => absurd h (lt_irrefl _)⟩
  · exact ⟨by dsimp only; omega, by dsimp only; omega, fun _ => Nat.le_add_left ..⟩

end Binary

/-- The bits of a number that is not the one for "no number". -/
theorem unpackedSize_unpack {b : BitVec 64}
    (h : @unpackExponent .binary64 b = -1#11 → @unpackMantissa .binary64 b = 0#52) :
    unpackedSize (UnpackedFloat.unpack .binary64 b) = (Binary.ofBits ⟨b⟩).value := by
  have hexponent := toNat_unpackExponent b
  have hmantissa := toNat_unpackMantissa b
  have hbits : (UInt64.ofBitVec b).toNat = b.toNat := rfl
  unfold UnpackedFloat.unpack Binary.ofBits
  dsimp only
  rw [hbits, ← hexponent, ← hmantissa]
  by_cases hlast : @unpackExponent .binary64 b = -1#11
  · rw [if_pos hlast, if_pos (h hlast), hlast, h hlast]
    change (2 : ℚ) ^ (52 + 972) = ((0 + Binary.hidden : Nat) : ℚ) * 2 ^ (972 : Nat)
    rw [pow_add, Binary.hidden]
    norm_num
  rw [if_neg hlast]
  by_cases hzero : @unpackExponent .binary64 b = 0#11
  · have heq : (@unpackExponent .binary64 b).toNat = 0 := congrArg BitVec.toNat hzero
    rw [if_pos hzero, if_pos heq]
    by_cases hm : @unpackMantissa .binary64 b = 0#52
    · rw [dif_pos hm, hm]
      exact (mul_eq_zero_of_left Nat.cast_zero _).symm
    · rw [dif_neg hm, hzero]
      rfl
  · have hne : (@unpackExponent .binary64 b).toNat ≠ 0 := fun he => hzero (BitVec.eq_of_toNat_eq he)
    have hfull : (1#1 ++ @unpackMantissa .binary64 b).toNat =
        (@unpackMantissa .binary64 b).toNat + Binary.hidden := by
      rw [BitVec.toNat_append, ← Nat.shiftLeft_add_eq_or_of_lt (BitVec.isLt _), Nat.add_comm]
      rfl
    rw [if_neg hzero, if_neg hne, ← hfull]
    rfl

variable {x y : Float} {q : ℚ}

abbrev binary (x : Float) : Binary := .ofBits x.toBits

theorem size_eq (h : x.isFinite = true) : size x = (binary x).value :=
  unpackedSize_unpack fun he => absurd he (unpackExponent_ne h)

theorem exists_formed (x : Float) : ∃ b : Binary, b.Formed ∧ size x = b.value := by
  by_cases h : @unpackExponent .binary64 x.toBits.toBitVec = -1#11 →
      @unpackMantissa .binary64 x.toBits.toBitVec = 0#52
  · exact ⟨_, Binary.formed_ofBits _, unpackedSize_unpack h⟩
  · obtain ⟨he, hm⟩ := Classical.not_imp.mp h
    refine ⟨⟨0, -1074⟩, ⟨by decide, by decide, fun h => absurd h (by decide)⟩, ?_⟩
    have hunpack : x.toModel.unpack = .notANumber := by
      change UnpackedFloat.unpack .binary64 x.toBits.toBitVec = _
      unfold UnpackedFloat.unpack
      exact (if_pos he).trans (if_neg hm)
    rw [size, hunpack]
    exact (mul_eq_zero_of_left Nat.cast_zero _).symm

theorem biased_lt (h : x.isFinite = true) : x.toBits.toNat / Binary.hidden % 2048 < 2047 := by
  have hne := unpackExponent_ne (b := x.toBits.toBitVec) h
  have hbiased := toNat_unpackExponent x.toBits.toBitVec
  have hlt : (@unpackExponent .binary64 x.toBits.toBitVec).toNat < 2048 := BitVec.isLt _
  have hlast : (@unpackExponent .binary64 x.toBits.toBitVec).toNat ≠ 2047 :=
    fun he => hne (BitVec.eq_of_toNat_eq he)
  change x.toBits.toBitVec.toNat / _ % _ < _
  omega

/-! ## Neighbours -/

namespace Binary

variable {b c : Binary} {e : Int}

theorem value_eq (h : e ≤ b.exponent) :
    b.value = (b.mantissa * 2 ^ (b.exponent - e).toNat : Nat) * 2 ^ e := by
  have hpow : (2 : ℚ) ^ b.exponent = 2 ^ (b.exponent - e).toNat * 2 ^ e := by
    rw [← zpow_natCast, ← zpow_add₀ two_ne_zero]
    congr 1
    omega
  rw [value, hpow]
  push_cast
  ring

theorem value_succ (m : Nat) (e : Int) : value ⟨m + 1, e⟩ = value ⟨m, e⟩ + 2 ^ e := by
  rw [value, value, Nat.cast_succ, add_one_mul]

theorem value_double (m : Nat) (e : Int) : value ⟨2 * m, e⟩ = value ⟨m, e + 1⟩ := by
  rw [value, value, zpow_add_one₀ two_ne_zero, Nat.cast_mul]
  ring

theorem two_pow_pos (e : Int) : (0 : ℚ) < 2 ^ e := zpow_pos two_pos e

theorem Formed.exponent_le (hb : b.Formed) (hc : c.Formed) (h : b.value < c.value) :
    b.exponent ≤ c.exponent := by
  by_contra hlt
  have hfull := hb.full (by have := hc.exponent_ge; omega)
  -- all of the mantissa of `b` is used, so `c` is below the smallest number with this exponent
  have hle : c.value ≤ b.value := by
    rw [value_eq (b := b) (e := c.exponent) (by omega), value]
    have hshift : 2 ≤ 2 ^ (b.exponent - c.exponent).toNat :=
      Nat.le_self_pow (by omega) 2
    have hmantissa := hc.mantissa_lt
    have hmul : hidden * 2 ≤ b.mantissa * 2 ^ (b.exponent - c.exponent).toNat :=
      Nat.mul_le_mul hfull hshift
    refine mul_le_mul_of_nonneg_right ?_ (two_pow_pos _).le
    exact_mod_cast (by omega : c.mantissa ≤ b.mantissa * 2 ^ (b.exponent - c.exponent).toNat)
  exact absurd h (not_lt.mpr hle)

/-- The next number above lies one step away. -/
theorem Formed.add_le (hb : b.Formed) (hc : c.Formed) (h : b.value < c.value) :
    b.value + 2 ^ b.exponent ≤ c.value := by
  have hpos := two_pow_pos b.exponent
  have hvalue := value_eq (hb.exponent_le hc h)
  rw [hvalue, value] at h
  rw [hvalue, value]
  have hlt := lt_of_mul_lt_mul_right h hpos.le
  have hle : (b.mantissa : ℚ) + 1 ≤ (c.mantissa * 2 ^ (c.exponent - b.exponent).toNat : Nat) := by
    exact_mod_cast hlt
  nlinarith

/-- The next number below lies one step away, or half a step below a power of two. -/
theorem Formed.le_sub (hb : b.Formed) (hc : c.Formed) (h : c.value < b.value) :
    c.value ≤ b.value - b.stepDown / 2 * 2 ^ b.exponent := by
  have hpos := two_pow_pos b.exponent
  have hpositive : b.mantissa ≠ 0 := by
    intro hzero
    have hnonneg : 0 ≤ c.value := mul_nonneg (Nat.cast_nonneg _) (two_pow_pos _).le
    have hb0 : b.value = 0 := by rw [value, hzero, Nat.cast_zero, zero_mul]
    exact absurd hnonneg (not_le.mpr (hb0 ▸ h))
  have hbelow : ∃ p : Binary, p.Formed ∧ p.value + 2 ^ p.exponent = b.value ∧
      (2 : ℚ) ^ p.exponent = b.stepDown / 2 * 2 ^ b.exponent := by
    have hlt := hb.mantissa_lt
    unfold stepDown
    by_cases hpower : b.mantissa = hidden ∧ -1074 < b.exponent
    · rw [if_pos hpower]
      obtain ⟨hm, he⟩ := hpower
      have hformed : Formed ⟨2 * hidden - 1, b.exponent - 1⟩ :=
        ⟨(by decide : 2 * hidden - 1 < 2 * hidden), Int.le_sub_one_of_lt he,
          fun _ => (by decide : hidden ≤ 2 * hidden - 1)⟩
      refine ⟨_, hformed, ?_, ?_⟩
      · rw [← value_succ, show 2 * hidden - 1 + 1 = 2 * hidden from rfl, value_double,
          Int.sub_add_cancel, ← hm]
      · rw [zpow_sub_one₀ two_ne_zero]
        ring
    · rw [if_neg hpower]
      obtain ⟨k, hk⟩ := Nat.exists_eq_add_one_of_ne_zero hpositive
      refine ⟨⟨k, b.exponent⟩, ⟨by dsimp only; omega, hb.exponent_ge, fun he => ?_⟩, ?_, ?_⟩
      · have hfull := hb.full he
        dsimp only at he ⊢
        omega
      · rw [← value_succ, ← hk]
      · norm_num
  obtain ⟨p, hp, hnext, hgap⟩ := hbelow
  rw [← hgap, ← hnext, add_sub_cancel_right]
  by_contra hlt
  exact absurd (hp.add_le hc (not_le.mp hlt)) (by rw [hnext]; exact not_le.mpr h)

theorem mantissa_mod (bits : UInt64) : (ofBits bits).mantissa % 2 = bits.toNat % 2 := by
  unfold ofBits hidden
  dsimp only
  split <;> dsimp only <;> omega

theorem value_ofBits_succ {bits bits' : UInt64} (h : bits'.toNat = bits.toNat + 1)
    (hbiased : bits.toNat / hidden % 2048 < 2047) :
    (ofBits bits').value = (ofBits bits).value + 2 ^ (ofBits bits).exponent := by
  have hlt := bits'.toNat_lt
  have hdiv := Nat.div_add_mod bits.toNat hidden
  have hmod : bits.toNat % hidden < hidden := Nat.mod_lt _ (by decide)
  have hstep : bits'.toNat / hidden % 2048 = bits.toNat / hidden % 2048 ∧
        bits'.toNat % hidden = bits.toNat % hidden + 1 ∨
      bits'.toNat / hidden % 2048 = bits.toNat / hidden % 2048 + 1 ∧
        bits'.toNat % hidden = 0 ∧ bits.toNat % hidden = hidden - 1 := by
    unfold hidden at *
    omega
  unfold ofBits
  dsimp only
  rcases hstep with ⟨he, hm⟩ | ⟨he, hm, hm'⟩
  · rw [he, hm]
    split
    · exact value_succ ..
    · rw [Nat.add_right_comm]
      exact value_succ ..
  · rw [he, hm, hm', if_neg (Nat.succ_ne_zero _), Nat.zero_add]
    split
    · next hzero =>
      rw [hzero]
      exact value_succ (hidden - 1) (-1074)
    · have hexponent : ((bits.toNat / hidden % 2048 + 1 : Nat) : Int) - 1075 =
          (bits.toNat / hidden % 2048 : Nat) - 1075 + 1 := by omega
      rw [hexponent, ← value_double]
      exact value_succ (hidden - 1 + hidden) _

end Binary

theorem exists_next (h : x.isFinite = true) :
    ∃ z : Float, size z = size x + 2 ^ (binary x).exponent := by
  have hbiased := biased_lt h
  have hsucc : (x.toBits + 1).toNat = x.toBits.toNat + 1 := by
    have hlt := x.toBits.toNat_lt
    unfold Binary.hidden at hbiased
    rw [UInt64.toNat_add, UInt64.toNat_one]
    omega
  have hnumber : @unpackExponent .binary64 (x.toBits + 1).toBitVec = -1#11 →
      @unpackMantissa .binary64 (x.toBits + 1).toBitVec = 0#52 := by
    intro he
    have hlast : (@unpackExponent .binary64 (x.toBits + 1).toBitVec).toNat = 2047 :=
      congrArg BitVec.toNat he
    apply BitVec.eq_of_toNat_eq
    rw [toNat_unpackExponent] at hlast
    rw [toNat_unpackMantissa]
    change (x.toBits + 1).toNat / _ % _ = _ at hlast
    change (x.toBits + 1).toNat % _ = 0
    unfold Binary.hidden at *
    omega
  refine ⟨⟨⟨x.toBits + 1, ⟨fun he hm => absurd (hnumber he) hm⟩⟩⟩, ?_⟩
  rw [size_eq h, ← Binary.value_ofBits_succ hsucc hbiased]
  exact unpackedSize_unpack hnumber

/-- A number rounds to one size only. Of two the middle would have to be halfway between neighbours
that are both even. -/
theorem RoundsTo.size_unique (hx : RoundsTo q x) (hy : RoundsTo q y) : size x = size y := by
  by_contra hne
  wlog hlt : size x < size y generalizing x y
  · exact this hy hx (Ne.symm hne) (lt_of_le_of_ne (not_lt.mp hlt) (Ne.symm hne))
  have hdistance : |q - size x| = |q - size y| := le_antisymm (hx.nearest y) (hy.nearest x)
  have hmiddle : q - size x = size y - q := by
    rcases abs_eq_abs.mp hdistance with h | h
    · exact absurd (sub_right_injective h) hne
    · rw [h, neg_sub]
  obtain ⟨z, hz⟩ := exists_next hx.finite
  have hb := Binary.formed_ofBits x.toBits
  have hc := Binary.formed_ofBits y.toBits
  have hlt' := hlt
  rw [size_eq hx.finite, size_eq hy.finite] at hlt'
  have hle : size z ≤ size y := by
    rw [hz, size_eq hx.finite, size_eq hy.finite]
    exact hb.add_le hc hlt'
  have hpos := Binary.two_pow_pos (binary x).exponent
  have hnext : size y = size z := by
    -- otherwise the one after `x` would be nearer
    have hnearest := hx.nearest z
    rw [abs_of_nonneg (by linarith), le_abs] at hnearest
    rcases hnearest with h | h <;> linarith
  have hodd : (binary x).mantissa + 1 =
      (binary y).mantissa * 2 ^ ((binary y).exponent - (binary x).exponent).toNat := by
    rw [hz, size_eq hx.finite, size_eq hy.finite, Binary.value_eq (hb.exponent_le hc hlt'),
      ← Binary.value_succ, Binary.value] at hnext
    exact_mod_cast (mul_right_cancel₀ hpos.ne' hnext).symm
  have hxeven : (binary x).mantissa % 2 = 0 :=
    (Binary.mantissa_mod _).trans (hx.even y hdistance hne)
  have hyeven : (binary y).mantissa % 2 = 0 :=
    (Binary.mantissa_mod _).trans (hy.even x hdistance.symm (Ne.symm hne))
  have heven := Nat.mul_mod (binary y).mantissa
    (2 ^ ((binary y).exponent - (binary x).exponent).toNat) 2
  rw [hyeven, Nat.zero_mul] at heven
  omega

/-! ## The decimals between the middles -/

namespace Binary

variable {b c : Binary} {k : Int} {d : Nat}

/-- A number between the middles to the neighbours of `b`, or one of these middles if the mantissa
is even. -/
def Between (b : Binary) (q : ℚ) : Prop :=
  let low := b.value - b.stepDown / 4 * 2 ^ b.exponent
  let high := b.value + 1 / 2 * 2 ^ b.exponent
  if b.mantissa % 2 = 0 then low ≤ q ∧ q ≤ high else low < q ∧ q < high

theorem Between.bounds (h : b.Between q) :
    b.value - b.stepDown / 4 * 2 ^ b.exponent ≤ q ∧ q ≤ b.value + 1 / 2 * 2 ^ b.exponent := by
  unfold Between at h
  dsimp only at h
  split at h
  · exact h
  · exact ⟨h.1.le, h.2.le⟩

theorem Between.bounds_of_odd (h : b.Between q) (hodd : b.mantissa % 2 ≠ 0) :
    b.value - b.stepDown / 4 * 2 ^ b.exponent < q ∧ q < b.value + 1 / 2 * 2 ^ b.exponent := by
  unfold Between at h
  exact (if_neg hodd).mp h

theorem between_of_lt (hlow : b.value - b.stepDown / 4 * 2 ^ b.exponent < q)
    (hhigh : q < b.value + 1 / 2 * 2 ^ b.exponent) : b.Between q := by
  unfold Between
  dsimp only
  split
  · exact ⟨hlow.le, hhigh.le⟩
  · exact ⟨hlow, hhigh⟩

theorem Between.roundsTo (hx : x.isFinite = true) (h : (binary x).Between q) :
    RoundsTo q x := by
  have hb := formed_ofBits x.toBits
  have hpos := two_pow_pos (binary x).exponent
  obtain ⟨hlow, hhigh⟩ := h.bounds
  have hother : ∀ y, size x ≠ size y → |q - size x| ≤ |q - size y| ∧
      ((binary x).mantissa % 2 ≠ 0 → |q - size x| < |q - size y|) := by
    intro y hne
    obtain ⟨c, hc, hy⟩ := exists_formed y
    rw [size_eq hx, hy] at hne ⊢
    rcases lt_or_gt_of_ne hne with hlt | hlt
    · have hgap := hb.add_le hc hlt
      have hright := neg_le_abs (q - c.value)
      refine ⟨abs_le.mpr ⟨by linarith, by linarith⟩, fun hodd => ?_⟩
      have hstrict := (h.bounds_of_odd hodd).2
      exact abs_lt.mpr ⟨by linarith, by linarith⟩
    · have hgap := hb.le_sub hc hlt
      have hleft := le_abs_self (q - c.value)
      refine ⟨abs_le.mpr ⟨by linarith, by linarith⟩, fun hodd => ?_⟩
      have hstrict := (h.bounds_of_odd hodd).1
      exact abs_lt.mpr ⟨by linarith, by linarith⟩
  refine ⟨hx, fun y => ?_, fun y heq hne => ?_⟩
  · by_cases hne : size x = size y
    · rw [hne]
    · exact (hother y hne).1
  · by_contra hodd
    rw [← mantissa_mod] at hodd
    exact absurd heq ((hother y hne).2 hodd).ne

/-! ## The decimals that are tried -/

theorem pow_toNat {r : ℚ} (hr : r ≠ 0) (a : Int) : r ^ a.toNat = r ^ (-a).toNat * r ^ a := by
  rw [← zpow_natCast, ← zpow_natCast, ← zpow_add₀ hr]
  congr 1
  omega

theorem ten_pow_pos (k : Int) : (0 : ℚ) < 10 ^ k := zpow_pos (by norm_num) k

theorem exists_scale (b : Binary) (k : Int) :
    ∃ s : ℚ, 0 < s ∧ ∀ n d : Nat, ((n * (b.grid k).num : Nat) : ℚ) = s * (n / 4 * 2 ^ b.exponent) ∧
      ((d * (b.grid k).den : Nat) : ℚ) = s * (d * 10 ^ k) := by
  refine ⟨2 ^ (2 - b.exponent).toNat * 10 ^ (-k).toNat, by positivity, fun n d => ?_⟩
  have htwo := pow_toNat (r := 2) two_ne_zero (b.exponent - 2)
  have hten := pow_toNat (r := 10) (by norm_num) k
  have hquarter : (2 : ℚ) ^ (b.exponent - 2) = 2 ^ b.exponent / 4 := by
    rw [zpow_sub₀ two_ne_zero]
    norm_num
  rw [neg_sub, hquarter] at htwo
  simp only [grid, Nat.pow_eq]
  push_cast
  rw [htwo, hten]
  constructor <;> ring

theorem grid_le {n : Nat} : n * (b.grid k).num ≤ d * (b.grid k).den ↔
    (n / 4 * 2 ^ b.exponent : ℚ) ≤ d * 10 ^ k := by
  obtain ⟨s, hs, hscale⟩ := b.exists_scale k
  rw [← Nat.cast_le (α := ℚ), (hscale n d).1, (hscale n d).2, mul_le_mul_iff_right₀ hs]

theorem le_grid {n : Nat} : d * (b.grid k).den ≤ n * (b.grid k).num ↔
    (d * 10 ^ k : ℚ) ≤ n / 4 * 2 ^ b.exponent := by
  obtain ⟨s, hs, hscale⟩ := b.exists_scale k
  rw [← Nat.cast_le (α := ℚ), (hscale n d).1, (hscale n d).2, mul_le_mul_iff_right₀ hs]

theorem stepDown_bounds (b : Binary) : 1 ≤ b.stepDown ∧ b.stepDown ≤ 2 := by
  unfold stepDown
  split <;> decide

theorem holds_iff (hm : b.mantissa ≠ 0) : b.holds k d = true ↔ b.Between (d * 10 ^ k) := by
  have hlow : (((4 * b.mantissa - b.stepDown : Nat) : ℚ) / 4 * 2 ^ b.exponent) =
      b.value - b.stepDown / 4 * 2 ^ b.exponent := by
    rw [Nat.cast_sub (by have := b.stepDown_bounds; omega), value]
    push_cast
    ring
  have hhigh : (((4 * b.mantissa + 2 : Nat) : ℚ) / 4 * 2 ^ b.exponent) =
      b.value + 1 / 2 * 2 ^ b.exponent := by
    rw [value]
    push_cast
    ring
  unfold holds Between
  dsimp only
  split <;>
    simp only [Bool.and_eq_true, decide_eq_true_eq, ← not_le, le_grid, grid_le, hlow, hhigh]

theorem holds_of_onGrid? (h : b.onGrid? k = some d) : b.holds k d = true := by
  unfold onGrid? at h
  dsimp only at h
  split at h
  · split at h <;> cases h <;> assumption
  · cases h
    assumption
  · cases h
    assumption
  · cases h

/-- A grid of seventeen digits has a point for every number: its steps are shorter than the distance
to the next number, and than half of it below a power of two. -/
theorem isSome_onGrid? (hb : b.Formed) (hm : b.mantissa ≠ 0) (h : 10 ^ (k + 16) ≤ b.value) :
    (b.onGrid? k).isSome = true := by
  have hfour : ((4 * b.mantissa : Nat) : ℚ) / 4 * 2 ^ b.exponent = b.value := by
    rw [value]
    push_cast
    ring
  obtain ⟨down, hdown⟩ : ∃ n, 4 * b.mantissa * (b.grid k).num / (b.grid k).den = n := ⟨_, rfl⟩
  have hle : (down * 10 ^ k : ℚ) ≤ b.value := by
    rw [← hfour, ← le_grid, ← hdown]
    exact Nat.div_mul_le_self ..
  have hden : 0 < (b.grid k).den := by
    simp only [grid, Nat.pow_eq]
    positivity
  have hlt : b.value < (down + 1) * 10 ^ k := by
    rw [← hfour, ← Nat.cast_succ, ← not_le, ← le_grid, ← hdown, not_le]
    exact (Nat.div_lt_iff_lt_mul hden).mp (Nat.lt_succ_self _)
  have hpoint : b.Between (down * 10 ^ k) ∨ b.Between ((down + 1 : Nat) * 10 ^ k) := by
    have hten := ten_pow_pos k
    have htwo := two_pow_pos b.exponent
    have hgrid : 10 ^ k * 10 ^ 16 ≤ b.mantissa * (2 : ℚ) ^ b.exponent := by
      rw [zpow_add₀ (by norm_num), value] at h
      exact_mod_cast h
    have hmantissa : (b.mantissa : ℚ) < 2 ^ 53 := by exact_mod_cast hb.mantissa_lt
    have hstep : (1 : ℚ) ≤ b.stepDown := by exact_mod_cast b.stepDown_bounds.1
    rw [Nat.cast_succ]
    by_cases hup : (down + 1) * 10 ^ k < b.value + 1 / 2 * 2 ^ b.exponent
    · exact .inr (between_of_lt (by nlinarith) hup)
    · -- the grid is coarse here, and so the value is above the power of two
      have hcoarse : 1 / 2 * (2 : ℚ) ^ b.exponent ≤ 10 ^ k := by linarith
      have hlarge : (5 * 10 ^ 15 : ℚ) ≤ b.mantissa := by
        by_contra hsmall
        nlinarith
      have hwhole : b.stepDown = 2 := by
        refine if_neg fun hpower => ?_
        rw [hpower.1, hidden] at hlarge
        norm_num at hlarge
      have hfine : (10 : ℚ) ^ k < 2 ^ b.exponent := by nlinarith
      exact .inl (between_of_lt (by rw [hwhole]; push_cast; linarith) (by linarith))
  unfold onGrid?
  dsimp only
  rw [hdown]
  split
  · split <;> rfl
  · rfl
  · rfl
  · next hfirst hsecond =>
    rcases hpoint with h | h
    · cases hfirst.symm.trans ((holds_iff hm).mpr h)
    · cases hsecond.symm.trans ((holds_iff hm).mpr h)

/-- The decimal logarithm is not estimated too high from the binary one. -/
def estimateHolds (l : Int) : Bool :=
  let estimate := l * 30103 / 100000
  10 ^ estimate.toNat * 2 ^ (-l).toNat ≤ 2 ^ l.toNat * 10 ^ (-estimate).toNat

theorem ten_pow_estimate_le {l : Int} (hl : -1074 ≤ l) (hu : l ≤ 1023) :
    (10 : ℚ) ^ (l * 30103 / 100000) ≤ 2 ^ l := by
  have htable : ∀ i < 2098, estimateHolds ((i : Nat) - 1074) = true := by decide +kernel
  have hle := htable (l + 1074).toNat (by omega)
  rw [Int.toNat_of_nonneg (by omega), Int.add_sub_cancel, estimateHolds,
    decide_eq_true_eq] at hle
  have hcast : (10 : ℚ) ^ (l * 30103 / 100000).toNat * 2 ^ (-l).toNat ≤
      2 ^ l.toNat * 10 ^ (-(l * 30103 / 100000)).toNat := by exact_mod_cast hle
  rw [pow_toNat (r := 10) (by norm_num), pow_toNat two_ne_zero l] at hcast
  have hpos : (0 : ℚ) < 10 ^ (-(l * 30103 / 100000)).toNat * 2 ^ (-l).toNat := by positivity
  refine le_of_mul_le_mul_left ?_ hpos
  linarith

theorem ten_pow_leading_le (hb : b.Formed) (hm : b.mantissa ≠ 0) (he : b.exponent ≤ 971) :
    10 ^ b.leading ≤ b.value := by
  unfold leading
  dsimp only
  split
  · next h =>
    rw [← Nat.one_mul (Grid.den _), le_grid, Nat.cast_one, one_mul] at h
    refine h.trans_eq ?_
    rw [value]
    push_cast
    ring
  · have hlog : b.mantissa.log2 < 53 := (Nat.log2_lt hm).mpr hb.mantissa_lt
    have hlow := hb.exponent_ge
    refine (ten_pow_estimate_le (by omega) (by omega)).trans ?_
    rw [value, zpow_add₀ two_ne_zero, zpow_natCast]
    refine mul_le_mul_of_nonneg_right ?_ (two_pow_pos _).le
    exact_mod_cast Nat.log2_self_le hm

theorem exists_firstOnGrid {leading : Int} (h : (b.onGrid? (leading - 16)).isSome = true)
    (fuel : Nat) : ∃ d k, b.onGrid? k = some d ∧ b.firstOnGrid leading (fuel + 1) = ⟨d, k⟩ := by
  induction fuel with
  | zero =>
    obtain ⟨d, hd⟩ := Option.isSome_iff_exists.mp h
    refine ⟨d, leading - 16, hd, ?_⟩
    rw [firstOnGrid, show leading - (17 - ((0 : Nat) + 1 : Int)) = leading - 16 from rfl, hd]
  | succ fuel ih =>
    rw [firstOnGrid]
    split
    · next d hd => exact ⟨d, _, hd, rfl⟩
    · exact ih

end Binary

theorem value_trim (d : Decimal) (fuel : Nat) : (d.trim fuel).value = d.value := by
  induction fuel generalizing d with
  | zero => rfl
  | succ fuel ih =>
    rw [trim]
    split
    · next h =>
      have hdigits : (d.digits : ℚ) = (d.digits / 10 : Nat) * 10 := by
        exact_mod_cast (Nat.div_mul_cancel (Nat.dvd_of_mod_eq_zero h.1)).symm
      rw [ih, value, value, hdigits, zpow_add_one₀ (by norm_num)]
      ring
    · rfl

/-- The decimal that is written for a double, without its sign. -/
def magnitude (x : Float) : Decimal :=
  let b := Binary.ofBits x.toBits
  if b.mantissa = 0 then ⟨0, 0⟩ else b.shortest

theorem roundsTo_magnitude (h : x.isFinite = true) : RoundsTo (magnitude x).value x := by
  have hb := Binary.formed_ofBits x.toBits
  unfold magnitude
  dsimp only
  by_cases hm : (binary x).mantissa = 0
  · have hzero : (binary x).value = 0 := by
      rw [Binary.value, hm, Nat.cast_zero, zero_mul]
    have hpos := Binary.two_pow_pos (binary x).exponent
    have hstep : (1 : ℚ) ≤ (binary x).stepDown := by
      exact_mod_cast (Binary.stepDown_bounds _).1
    rw [if_pos hm, value, Nat.cast_zero, zero_mul]
    exact (Binary.between_of_lt (by rw [hzero]; nlinarith) (by rw [hzero]; linarith)).roundsTo h
  rw [if_neg hm]
  have hexponent : (binary x).exponent ≤ 971 := by
    have hbiased := biased_lt h
    unfold binary Binary.ofBits
    dsimp only
    split <;> dsimp only <;> omega
  have hlast : ((binary x).onGrid? ((binary x).leading - 16)).isSome = true := by
    refine Binary.isSome_onGrid? hb hm ?_
    rw [Int.sub_add_cancel]
    exact Binary.ten_pow_leading_le hb hm hexponent
  obtain ⟨d, k, hgrid, hfirst⟩ := Binary.exists_firstOnGrid hlast 16
  rw [Binary.shortest, value_trim, hfirst]
  exact ((Binary.holds_iff hm).mp (Binary.holds_of_onGrid? hgrid)).roundsTo h

end Decimal
end MiniPascal
